import GraphBufferPool.Concurrent.Protocol
import GraphBufferPool.Lib.Counting
import GraphBufferPool.Lib.MarkerLock

/-! # Frame ownership

The protocol invariant assigns every frame a single place and every BUSY mapping a single owner.
The reference count of a resident frame is the number of its holders; a busy word and a frame
outside the mappings have none. Each move preserves the invariant, so it holds along every run
whose counts have room.
-/

namespace Gbp.Protocol

open Function Counting

variable {T : Type}

/-- The one place of a frame: in the free list, in a mapping, in a mapping that a thread keeps BUSY,
or with the thread that is loading into it. -/
inductive Place (T : Type)
  | absent
  | free
  | mapped (page : Page)
  | locked (t : T) (page : Page)
  | owned (t : T)
deriving DecidableEq

namespace Place

/-- The page whose bytes a frame in this place holds for others. -/
def page? : Place T → Option Page
  | mapped page => some page
  | locked _ page => some page
  | _ => none

theorem page?_eq_some {place : Place T} {page : Page} :
    place.page? = some page ↔ place = mapped page ∨ ∃ t, place = locked t page := by
  cases place <;> simp [page?]

end Place

section places

/-- A projection that a single update leaves alone is unchanged everywhere. -/
theorem apply_update_same {ι α β : Type*} [DecidableEq ι] (proj : α → β) (f : ι → α) {i : ι} {a : α}
    (same : proj a = proj (f i)) (j : ι) : proj (update f i a j) = proj (f j) := by
  by_cases here : j = i
  · subst here
    rw [update_self, same]
  · rw [update_of_ne here]

/-- Moving one frame changes which frames are in no other place than its old and its new one. -/
theorem place_update_iff {place : ℕ → Place T} {m : ℕ} {b c : Place T} (fromOld : place m ≠ c)
    (toNew : b ≠ c) (k : ℕ) : update place m b k = c ↔ place k = c := by
  by_cases here : k = m
  · subst here
    rw [update_self]
    exact ⟨fun same => absurd same toNew, fun same => absurd same fromOld⟩
  · rw [update_of_ne here]

variable [DecidableEq T]

/-- Every frame in place `a` goes to place `b`. -/
def relabel (place : ℕ → Place T) (a b : Place T) : ℕ → Place T :=
  fun m => if place m = a then b else place m

theorem relabel_eq_iff {place : ℕ → Place T} {a b c : Place T} (m : ℕ) :
    relabel place a b m = c ↔ place m = a ∧ b = c ∨ place m ≠ a ∧ place m = c := by
  unfold relabel
  split_ifs with here <;> simp [here]

theorem relabel_page? {place : ℕ → Place T} {a b : Place T} (same : b.page? = a.page?) (m : ℕ) :
    (relabel place a b m).page? = (place m).page? := by
  unfold relabel
  split_ifs with here
  · rw [same, here]
  · rfl

end places

section counts

variable [Fintype T]

/-- The counted references to a frame: kept pins and those threads have in hand. -/
def holders (pins : List (Page × ℕ)) (ref : T → Option (ℕ × Option Page)) (m : ℕ) : ℕ :=
  pins.countP (fun pin => pin.2 = m) + count (fun ref => ref.map Prod.fst = some m) ref

/-- The threads about to increment the count of a frame. -/
def aims (aim : T → Option ℕ) (m : ℕ) : ℕ := count (fun aim => aim = some m) aim

/-- Kept pins plus threads fit the reference count. -/
def View.HasRoom (v : View T) : Prop :=
  ∀ m, v.pins.countP (fun pin => pin.2 = m) + Fintype.card T < 2 ^ 16

variable {pins : List (Page × ℕ)} {ref : T → Option (ℕ × Option Page)} {aim : T → Option ℕ}

theorem holders_pos_of_pin {page : Page} {m : ℕ} (member : (page, m) ∈ pins) :
    0 < holders pins ref m := by
  have : 0 < pins.countP (fun pin => pin.2 = m) :=
    List.countP_pos_iff.mpr ⟨(page, m), member, by simp⟩
  simp only [holders]
  omega

theorem holders_cons (pin : Page × ℕ) (m : ℕ) :
    holders (pin :: pins) ref m = holders pins ref m + if pin.2 = m then 1 else 0 := by
  simp only [holders, List.countP_cons, decide_eq_true_eq]
  omega

theorem holders_erase (ref : T → Option (ℕ × Option Page)) {pin : Page × ℕ} (member : pin ∈ pins) (m : ℕ) :
    holders (pins.erase pin) ref m + (if pin.2 = m then 1 else 0) = holders pins ref m := by
  rw [← holders_cons]
  simp only [holders, (List.perm_cons_erase member).countP_eq]

variable [DecidableEq T]

theorem aims_update (aim : T → Option ℕ) (t : T) (new : Option ℕ) (m : ℕ) :
    aims (update aim t new) m + (if aim t = some m then 1 else 0) =
      aims aim m + if new = some m then 1 else 0 :=
  count_update (fun aim => aim = some m) aim t new

/-- Taking up or dropping an aim leaves the other frames' aims alone. -/
theorem aims_of_ne {t : T} {new : Option ℕ} {m : ℕ} (before : aim t ≠ some m)
    (after : new ≠ some m) : aims (update aim t new) m = aims aim m := by
  have moved := aims_update aim t new m
  rwa [if_neg before, if_neg after] at moved

theorem aims_pos {t : T} {m : ℕ} (aimed : aim t = some m) : 0 < aims aim m :=
  count_pos (fun aim => aim = some m) aim aimed

theorem holders_update (pins : List (Page × ℕ)) (ref : T → Option (ℕ × Option Page)) (t : T)
    (new : Option (ℕ × Option Page)) (m : ℕ) :
    holders pins (update ref t new) m + (if (ref t).map Prod.fst = some m then 1 else 0) =
      holders pins ref m + if new.map Prod.fst = some m then 1 else 0 := by
  have moved := count_update (fun ref : Option (ℕ × Option Page) => ref.map Prod.fst = some m)
    ref t new
  simp only [holders]
  omega

theorem holders_pos_of_ref {t : T} {m : ℕ} {page? : Option Page} (held : ref t = some (m, page?)) :
    0 < holders pins ref m := by
  have := count_pos (fun ref : Option (ℕ × Option Page) => ref.map Prod.fst = some m) ref
    (i := t) (by simp [held])
  simp only [holders]
  omega

end counts

variable [Fintype T]

/-- The protocol invariant. -/
structure Inv (files : Files) (v : View T) (place : ℕ → Place T) : Prop where
  free : ∀ m, m ∈ v.free ↔ place m = .free
  freeNodup : v.free.Nodup
  mapped : ∀ page m, v.map page = .frame m ↔ place m = .mapped page
  lockedFrame : ∀ t page m, (page, .frame m) ∈ v.locks t ↔ place m = .locked t page
  owned : ∀ t m, (∃ page?, v.owned t = some (m, page?)) ↔ place m = .owned t
  table : MarkerLock.Held .busy v.map v.locks
  valid : ∀ page, v.map page ≠ .empty → files.Valid page
  listNodup : v.list.Nodup
  inList : ∀ m ∈ v.list, ∃ page, (place m).page? = some page
  handLinked : ∀ i, v.hand = .node i → i ∈ v.list
  handValid : v.hand ≠ .invalid
  candidate : ∀ t m page?, v.candidate t = some (m, page?) →
    v.latch = some t ∧ m ∈ v.list ∧ ∀ page ∈ page?, (v.pte m).page = page
  described : ∀ m page, (place m).page? = some page →
    (v.pte m).initialized = true ∧ (v.pte m).page = page
  counted : ∀ m page, (place m).page? = some page → (v.pte m).busy = false →
    (v.pte m).refCount = holders v.pins v.ref m
  unheld : ∀ m, (v.pte m).busy = true ∨ (place m).page? = none → holders v.pins v.ref m = 0
  unaimed : ∀ m, (place m).page? = none → (v.pte m).busy = false → aims v.aim m = 0
  mappedFree : ∀ m page, place m = .mapped page → (v.pte m).busy = false
  lockedBusy : ∀ m t page, place m = .locked t page →
    ((v.pte m).busy = true ↔ v.pteLock t = some m)
  pteLocked : ∀ t m, v.pteLock t = some m → ∃ page, place m = .locked t page
  bounded : ∀ m, (v.pte m).busy = true → (v.pte m).refCount + aims v.aim m ≤ Fintype.card T
  pinPage : ∀ page m, (page, m) ∈ v.pins → (v.pte m).page = page
  refPage : ∀ t m page, v.ref t = some (m, some page) → (v.pte m).page = page
  evicting : ∀ t m page, v.owned t = some (m, some page) →
    (v.pte m).busy = true ∧ (v.pte m).page = page ∧ (page, .empty) ∈ v.locks t

namespace Inv

variable {files : Files} {v : View T} {place : ℕ → Place T}

/-- A frame that somebody holds is resident and not locked. -/
theorem held_place (inv : Inv files v place) {m : ℕ} (positive : 0 < holders v.pins v.ref m) :
    ∃ page, (place m).page? = some page ∧ (v.pte m).busy = false ∧
      (v.pte m).refCount = holders v.pins v.ref m := by
  have free : (v.pte m).busy = false := by
    by_contra busy
    exact positive.ne' (inv.unheld m (Or.inl (by simpa using busy)))
  cases resident : (place m).page? with
  | none => exact absurd (inv.unheld m (Or.inr resident)) positive.ne'
  | some page => exact ⟨page, rfl, free, inv.counted m page resident free⟩

/-- A thread about to count a free word aims at a resident frame. -/
theorem aimed_place [DecidableEq T] (inv : Inv files v place) {t : T} {m : ℕ} (aimed : v.aim t = some m)
    (free : (v.pte m).busy = false) : ∃ page, (place m).page? = some page := by
  cases resident : (place m).page? with
  | none => exact absurd (inv.unaimed m resident free) (aims_pos aimed).ne'
  | some page => exact ⟨page, rfl⟩

/-- While the counts have room, an increment does not carry into the handle. -/
theorem room [DecidableEq T] (inv : Inv files v place) (hasRoom : v.HasRoom) {t : T} {m : ℕ}
    (aimed : v.aim t = some m) (idle : (v.pte m).busy = false → v.ref t = none) :
    (v.pte m).refCount + 1 < 2 ^ 16 := by
  cases busy : (v.pte m).busy with
  | true =>
    have stray := inv.bounded m busy
    have positive := aims_pos aimed
    have := hasRoom m
    omega
  | false =>
    obtain ⟨page, resident⟩ := inv.aimed_place aimed busy
    have counted := inv.counted m page resident busy
    have others := count_lt_card (fun ref : Option (ℕ × Option Page) => ref.map Prod.fst = some m)
      v.ref (i := t) (by simp [idle busy])
    have := hasRoom m
    simp only [holders] at counted
    omega

/-- Two resident frames never hold the same page. -/
theorem page?_injective (inv : Inv files v place) {m k : ℕ} {page : Page}
    (first : (place m).page? = some page) (second : (place k).page? = some page) : m = k := by
  rcases Place.page?_eq_some.mp first with left | ⟨t, left⟩ <;>
    rcases Place.page?_eq_some.mp second with right | ⟨t', right⟩
  · have := ((inv.mapped page m).mpr left).symm.trans ((inv.mapped page k).mpr right)
    exact MapWord.frame.inj this
  · have marked := inv.table.marked_of_mem ((inv.lockedFrame t' page k).mpr right)
    rw [(inv.mapped page m).mpr left] at marked
    cases marked
  · have marked := inv.table.marked_of_mem ((inv.lockedFrame t page m).mpr left)
    rw [(inv.mapped page k).mpr right] at marked
    cases marked
  · have := inv.table.owner ((inv.lockedFrame t page m).mpr left)
      ((inv.lockedFrame t' page k).mpr right)
    exact MapWord.frame.inj this.2

end Inv

end Gbp.Protocol
