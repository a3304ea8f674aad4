import GraphBufferPool.Concurrent.Soundness
import GraphBufferPool.Concurrent.Schedule

/-! # Pin safety and exclusive residency

What callers rely on, in every state of every interleaving: a pinned frame stays the frame of its
page, and pages, frames and BUSY mappings are never shared by mistake.
-/

namespace Gbp.Concurrent

open Function Protocol

variable {T : Type} [DecidableEq T] [Fintype T] {cfg : PoolConfig} {s s' : State T} {t : T}

/-- Thread `t` made the mapping of `page` BUSY and is going to write `word` to it. -/
def State.Keeps (s : State T) (t : T) (page : Page) (word : MapWord) : Prop :=
  (page, word) ∈ (s.pc t).locks

/-- The frame a fetch polled from the free list or got from `Victim`, until it is mapped. -/
def Pc.taken? : Pc → Option ℕ
  | insert _ m | writeLoad (.created _ m) | writeCas (.created _ m) => some m
  | pc => pc.owned.map Prod.fst

/-- Frame `m` is returned by `Victim` in the step of thread `t`. -/
def State.Returned (s s' : State T) (t : T) (m : ℕ) : Prop :=
  ∃ r victim, s'.pc t = .evictDirty r m victim ∧ s.pc t ≠ s'.pc t

section holds
omit [DecidableEq T] [Fintype T]

theorem Pc.ref_of_pin? {pc : Pc} {page : Page} {m : ℕ} (pinned : pc.pin? = some (page, m)) :
    pc.ref = some (m, some page) := by
  cases pc <;> simp_all [Pc.pin?, Pc.ref]

theorem State.mapping_setMapping (page : Page) (word : MapWord) :
    (s.setMapping cfg page word).mapping cfg page = word := by
  simp [State.mapping, State.setMapping]

end holds

/-- A page that somebody holds is resident in its frame, whose word counts the holders. -/
theorem Sound.held (sound : Sound cfg s) {page : Page} {m : ℕ} (holds : s.Holds page m) :
    ∃ place, Inv (files cfg) (view cfg s) place ∧ (place m).page? = some page ∧
      (s.ptes m).busy = false ∧ (s.ptes m).page = page ∧ s.outstanding m ≤ (s.ptes m).refCount := by
  obtain ⟨place, inv, _⟩ := sound.safe
  have counted : s.outstanding m ≤ holders (view cfg s).pins (view cfg s).ref m := by
    have fewer : Counting.count (fun pin => pin.map Prod.snd = some m) (fun t => (s.pc t).pin?) ≤
        Counting.count (fun ref => ref.map Prod.fst = some m) (view cfg s).ref := by
      apply Counting.count_mono
      intro t pinned
      obtain ⟨⟨page', m'⟩, pin, rfl⟩ := Option.map_eq_some_iff.mp pinned
      change ((s.pc t).ref).map Prod.fst = some m'
      rw [Pc.ref_of_pin? pin]
      rfl
    simp only [State.outstanding, holders, view] at fewer ⊢
    omega
  have heldPage : 0 < holders (view cfg s).pins (view cfg s).ref m ∧ (s.ptes m).page = page := by
    rcases holds with member | ⟨t, pinned⟩
    · exact ⟨holders_pos_of_pin member, inv.pinPage page m member⟩
    · have held : (view cfg s).ref t = some (m, some page) := Pc.ref_of_pin? pinned
      exact ⟨holders_pos_of_ref held, inv.refPage t m page held⟩
  obtain ⟨page', resident, free, count⟩ := inv.held_place heldPage.1
  have described := (inv.described m page' resident).2
  obtain rfl : page' = page := described.symm.trans heldPage.2
  exact ⟨place, inv, resident, free, described, counted.trans count.ge⟩

section keeps
omit [Fintype T]

theorem finish_mapping {r : Request} {m : ℕ} (page : Page) :
    (s.finish t r m).mapping cfg page = s.mapping cfg page := by
  unfold State.finish
  cases r.goal <;> rfl

/-- A thread that keeps a mapping for a frame whose entry it has not locked goes on keeping it, or
writes that frame. -/
theorem next_keeps {page : Page} {m : ℕ} (keeps : s.Keeps t page (.frame m))
    (unlocked : (s.pc t).pteLock ≠ some m) (moved : next cfg s t (s.pc t) = some s') :
    s'.Keeps t page (.frame m) ∨ s'.mapping cfg page = .frame m := by
  unfold State.Keeps at *
  have notCaller {caller : Caller} : (page, .frame m) ∉ caller.locks := by
    cases caller <;> simp [Caller.locks]
  generalize here : s.pc t = pc at keeps unlocked moved
  cases pc with
  | pteLockLoad caller page' k =>
    cases moved
    apply Or.inl
    rw [goto_pc, pteLockSeen]
    split_ifs <;> exact keeps
  | pteLockCas caller page' k old =>
    simp only [next] at moved
    split_ifs at moved
    · obtain ⟨new, _, rfl⟩ := Option.map_eq_some_iff.mp moved
      apply Or.inl
      rw [goto_pc]
      cases caller <;> exact keeps
    · cases moved
      apply Or.inl
      rw [goto_pc, pteLockSeen]
      split_ifs <;> exact keeps
  | unLockTest caller page' value =>
    simp only [next] at moved
    cases value with
    | frame k =>
      simp only at moved
      split_ifs at moved
      cases moved
      exact Or.inl (by rw [goto_pc]; exact keeps)
    | empty =>
      cases moved
      exact Or.inl (by rw [goto_pc]; exact keeps)
    | busy =>
      cases moved
      exact Or.inl (by rw [goto_pc]; exact keeps)
  | pteUnLockLoad caller page' k =>
    simp only [next] at moved
    split_ifs at moved
    cases moved
    exact Or.inl (by rw [goto_pc]; exact keeps)
  | pteUnLockCas caller page' k old =>
    simp only [next] at moved
    split_ifs at moved
    · obtain ⟨new, _, rfl⟩ := Option.map_eq_some_iff.mp moved
      exact Or.inl (by rw [goto_pc]; exact keeps)
    · cases moved
      exact Or.inl (by rw [goto_pc]; exact keeps)
  | writeLoad write =>
    simp only [next] at moved
    split_ifs at moved
    cases moved
    exact Or.inl (by rw [goto_pc]; exact keeps)
  | writeCas write =>
    simp only [next] at moved
    split_ifs at moved
    cases moved
    apply Or.inr
    cases write with
    | restore caller page' k =>
      obtain ⟨rfl, rfl⟩ : page = page' ∧ m = k := by
        simpa using (List.mem_cons.mp keeps).resolve_right notCaller
      exact State.mapping_setMapping page _
    | unlocked caller page' value =>
      obtain ⟨rfl, rfl⟩ : page = page' ∧ .frame m = value := by
        simpa using (List.mem_cons.mp keeps).resolve_right notCaller
      cases caller <;> exact State.mapping_setMapping page _
    | deleted r k victim => simp [Pc.locks, MapWrite.locks] at keeps
    | created r k =>
      obtain ⟨rfl, rfl⟩ : page = r.page ∧ m = k := by
        simpa [Pc.locks, MapWrite.locks] using keeps
      exact (finish_mapping r.page).trans (State.mapping_setMapping r.page _)
  | victimTest r toEvict count victim value =>
    obtain ⟨rfl, rfl⟩ : page = victim ∧ .frame m = value := by simpa [Pc.locks] using keeps
    exact absurd rfl unlocked
  | victimUnLock r toEvict count victim value =>
    obtain ⟨rfl, rfl⟩ : page = victim ∧ .frame m = value := by simpa [Pc.locks] using keeps
    exact absurd rfl unlocked
  | insert r k =>
    simp only [next] at moved
    split_ifs at moved
    split at moved <;> cases moved
    exact Or.inl (by rw [goto_pc]; exact keeps)
  | lockLoad caller page' => exact absurd keeps notCaller
  | lockCas caller page' old => exact absurd keeps notCaller
  | _ => simp [Pc.locks] at keeps

theorem spurious_keeps {page : Page} {m : ℕ} (keeps : s.Keeps t page (.frame m))
    (moved : spurious cfg s t (s.pc t) = some s') : s'.Keeps t page (.frame m) := by
  unfold State.Keeps at *
  generalize here : s.pc t = pc at keeps moved
  cases pc with
  | lockCas caller page' old => cases caller <;> simp [Pc.locks, Caller.locks] at keeps
  | pteLockCas caller page' k old =>
    cases moved
    rw [goto_pc, pteLockSeen]
    split_ifs <;> exact keeps
  | pteUnLockCas caller page' k old =>
    simp only [spurious] at moved
    split_ifs at moved
    cases moved
    rw [goto_pc]
    exact keeps
  | writeCas write =>
    simp only [spurious] at moved
    split_ifs at moved
    cases moved
    rw [here]
    exact keeps
  | _ => cases moved

end keeps

/-- While the frame is held, the thread that made the mapping of its page BUSY keeps it so until it
writes that frame back. -/
theorem Sound.step_keeps (sound : Sound cfg s) (handles : Handles cfg)
    (room : (view cfg s).HasRoom) {page : Page} {m : ℕ} (holds : s.Holds page m)
    (keeps : s.Keeps t page (.frame m)) {t' : T} {action : Action}
    (moved : Concurrent.step cfg s t' action = some s') :
    s'.mapping cfg page = .busy ∧ s'.Keeps t page (.frame m) ∨
      t' = t ∧ s'.mapping cfg page = .frame m := by
  have marked (kept : s'.Keeps t page (.frame m)) : s'.mapping cfg page = .busy := by
    have sound' := sound.step handles room moved
    have valid := valid_of_locked sound'.safe kept
    obtain ⟨place, inv, _⟩ := sound'.safe
    exact (viewMap_of_valid valid).symm.trans (inv.table.marked_of_mem kept)
  by_cases mine : t' = t
  · subst mine
    obtain ⟨place, inv, _, free, _, _⟩ := sound.held holds
    have unlocked : (s.pc t').pteLock ≠ some m := by
      intro locked
      have busy := (inv.lockedBusy m t' page ((inv.lockedFrame t' page m).mp keeps)).mpr locked
      change (s.ptes m).busy = true at busy
      simp [free] at busy
    cases action with
    | call op =>
      simp only [Concurrent.step] at moved
      split_ifs at moved with idle
      simp [State.Keeps, idle, Pc.locks] at keeps
    | next =>
      rcases next_keeps keeps unlocked moved with kept | written
      · exact Or.inl ⟨marked kept, kept⟩
      · exact Or.inr ⟨rfl, written⟩
    | spurious =>
      have kept := spurious_keeps keeps moved
      exact Or.inl ⟨marked kept, kept⟩
  · obtain ⟨⟨pc, samePc, _⟩, _⟩ := kept_step sound moved
    have kept : s'.Keeps t page (.frame m) := by
      unfold State.Keeps
      rw [samePc, update_of_ne (Ne.symm mine)]
      exact keeps
    exact Or.inl ⟨marked kept, kept⟩

section returned
omit [Fintype T]

variable {r : Request} {m : ℕ} {victim : Page}

private theorem lockFailed_ne (caller : Caller) : lockFailed caller ≠ .evictDirty r m victim := by
  cases caller <;> simp [lockFailed]

private theorem lockSeen_ne (caller : Caller) (page : Page) (word : MapWord) :
    lockSeen caller page word ≠ .evictDirty r m victim := by
  unfold lockSeen
  split_ifs
  · exact lockFailed_ne caller
  · simp

private theorem lockDone_ne (caller : Caller) (page : Page) (word : MapWord) :
    lockDone caller page word ≠ .evictDirty r m victim := by
  cases caller
  · simp only [lockDone]
    split_ifs <;> simp
  · simp [lockDone]

private theorem pteLockSeen_ne (caller : Caller) (page : Page) (k : ℕ) (word : PTE) :
    pteLockSeen caller page k word ≠ .evictDirty r m victim := by
  unfold pteLockSeen
  split_ifs <;> simp

private theorem pinFailed_ne (r' : Request) : pinFailed r' ≠ .evictDirty r m victim := by
  unfold pinFailed
  cases r'.goal <;> simp

private theorem finish_ne (r' : Request) (k : ℕ) :
    (s.finish t r' k).pc t ≠ .evictDirty r m victim := by
  unfold State.finish
  cases r'.goal <;> simp [State.goto]

private theorem sweepTo_ne {r' : Request} {toEvict count : ℕ}
    (swept : s.sweepTo t r' toEvict count = some s') : s'.pc t ≠ .evictDirty r m victim := by
  unfold State.sweepTo at swept
  split at swept <;> cases swept
  simp [goto_pc]

/-- `Victim` returns only a frame whose count it read as zero. -/
theorem next_returned
    (moved : next cfg s t (s.pc t) = some s') (returned : s'.pc t = .evictDirty r m victim) :
    (s.ptes m).refCount = 0 := by
  generalize here : s.pc t = pc at moved
  cases pc with
  | victimTest r' toEvict count page value =>
    simp only [next] at moved
    split_ifs at moved with chosen <;> cases moved
    · rw [goto_pc] at returned
      cases returned
      exact chosen.1
    · simp [goto_pc] at returned
  | findMapping r' =>
    simp only [next] at moved
    split at moved <;> cases moved <;> rw [goto_pc] at returned
    · cases returned
    · exact absurd returned (pinFailed_ne r')
  | incRefCount r' k =>
    cases moved
    rw [goto_pc] at returned
    split_ifs at returned
    exact absurd returned (pinFailed_ne r')
  | undoRefCount r' k =>
    cases moved
    rw [goto_pc] at returned
    exact absurd returned (pinFailed_ne r')
  | promote r' k =>
    cases moved
    exact absurd returned (finish_ne r' k)
  | lockLoad caller page =>
    cases moved
    rw [goto_pc] at returned
    exact (lockSeen_ne _ _ _ returned).elim
  | lockCas caller page old =>
    simp only [next] at moved
    split_ifs at moved <;> cases moved <;> rw [goto_pc] at returned
    · cases old with
      | frame k => cases returned
      | empty => exact (lockDone_ne _ _ _ returned).elim
      | busy => exact (lockDone_ne _ _ _ returned).elim
    · exact (lockSeen_ne _ _ _ returned).elim
  | pteLockLoad caller page k =>
    cases moved
    rw [goto_pc] at returned
    exact (pteLockSeen_ne _ _ _ _ returned).elim
  | pteLockCas caller page k old =>
    simp only [next] at moved
    split_ifs at moved
    · obtain ⟨new, _, rfl⟩ := Option.map_eq_some_iff.mp moved
      rw [goto_pc] at returned
      exact (lockDone_ne _ _ _ returned).elim
    · cases moved
      rw [goto_pc] at returned
      exact (pteLockSeen_ne _ _ _ _ returned).elim
  | unLockTest caller page value =>
    cases value with
    | frame k =>
      simp only [next] at moved
      split_ifs at moved
      cases moved
      simp [goto_pc] at returned
    | empty =>
      cases moved
      simp [goto_pc] at returned
    | busy =>
      cases moved
      simp [goto_pc] at returned
  | pteUnLockCas caller page k old =>
    simp only [next] at moved
    split_ifs at moved
    · obtain ⟨new, _, rfl⟩ := Option.map_eq_some_iff.mp moved
      simp [goto_pc] at returned
    · cases moved
      simp [goto_pc] at returned
  | writeCas write =>
    simp only [next] at moved
    split_ifs at moved
    cases moved
    cases write with
    | restore caller page k =>
      rw [State.written, goto_pc] at returned
      exact absurd returned (lockFailed_ne caller)
    | unlocked caller page value => cases caller <;> simp [State.written, goto_pc] at returned
    | deleted r' k page => simp [State.written, goto_pc] at returned
    | created r' k => exact absurd returned (finish_ne r' k)
  | sweepSub r' toEvict count => exact absurd returned (sweepTo_ne moved)
  | victimNext r' toEvict count =>
    simp only [next] at moved
    split_ifs at moved
    exact absurd returned (sweepTo_ne moved)
  | evictDirty r' k page =>
    cases moved
    rw [goto_pc] at returned
    split_ifs at returned
  | insert r' k =>
    simp only [next] at moved
    split_ifs at moved
    split at moved <;> cases moved
    simp [goto_pc] at returned
  | initing r' =>
    simp only [next] at moved
    split at moved <;> cases moved <;> simp [goto_pc] at returned
  | victimBegin r' =>
    simp only [next] at moved
    split_ifs at moved <;> split at moved <;> cases moved
    simp [goto_pc] at returned
  | sweep r' toEvict count =>
    simp only [next] at moved
    split_ifs at moved <;> cases moved <;> simp [goto_pc] at returned
  | victimRef r' toEvict count =>
    simp only [next] at moved
    split_ifs at moved <;> cases moved <;> simp [goto_pc] at returned
  | pteUnLockLoad caller page k =>
    simp only [next] at moved
    split_ifs at moved
    cases moved
    simp [goto_pc] at returned
  | writeLoad write =>
    simp only [next] at moved
    split_ifs at moved
    cases moved
    simp [goto_pc] at returned
  | setObject page k stores wrote =>
    cases stores <;> cases moved <;> simp [goto_pc] at returned
  | update page k stores wrote =>
    cases stores <;> cases moved <;> simp [goto_pc] at returned
  | updateDirty page k wrote =>
    cases moved
    simp [State.goto] at returned
  | idle => cases moved
  | _ =>
    cases moved
    simp [goto_pc] at returned

/-- A failed exchange returns no frame. -/
theorem spurious_ne (moved : spurious cfg s t (s.pc t) = some s') (here : s'.pc t ≠ s.pc t) :
    s'.pc t ≠ .evictDirty r m victim := by
  generalize same : s.pc t = pc at moved here
  cases pc with
  | lockCas caller page old =>
    cases moved
    rw [goto_pc]
    exact lockSeen_ne _ _ _
  | pteLockCas caller page k old =>
    cases moved
    rw [goto_pc]
    exact pteLockSeen_ne _ _ _ _
  | pteUnLockCas caller page k old =>
    simp only [spurious] at moved
    split_ifs at moved
    cases moved
    simp [goto_pc]
  | writeCas write =>
    simp only [spurious] at moved
    split_ifs at moved
    cases moved
    exact absurd same here
  | _ => cases moved

theorem outstanding_pos [Fintype T] {page : Page} (holds : s.Holds page m) : 0 < s.outstanding m := by
  unfold State.outstanding
  rcases holds with member | ⟨t, pinned⟩
  · have : 0 < s.pins.countP (fun pin => pin.2 = m) :=
      List.countP_pos_iff.mpr ⟨(page, m), member, by simp⟩
    omega
  · have := Counting.count_pos (fun pin : Option (Page × ℕ) => pin.map Prod.snd = some m)
      (fun t => (s.pc t).pin?) (i := t) (by simp [pinned])
    omega

end returned

/-- A pinned frame is never a victim. -/
theorem Sound.not_returned (sound : Sound cfg s) {page : Page} {m : ℕ} (holds : s.Holds page m)
    {action : Action} (moved : Concurrent.step cfg s t action = some s') :
    ¬ s.Returned s' t m := by
  rintro ⟨r, victim, returned, changed⟩
  obtain ⟨_, _, _, _, _, counted⟩ := sound.held holds
  cases action with
  | call op =>
    simp only [Concurrent.step] at moved
    split_ifs at moved
    cases op <;> simp only [call] at moved <;> split_ifs at moved <;> cases moved <;>
      simp [goto_pc] at returned
  | next =>
    have zero := next_returned moved returned
    have positive := outstanding_pos holds
    omega
  | spurious => exact spurious_ne moved changed.symm returned

/-! ## Pin safety -/

/-- What a holder of `page` in frame `m` relies on. -/
structure State.Pinned (cfg : PoolConfig) (s : State T) (page : Page) (m : ℕ) : Prop where
  notBusy : (s.ptes m).busy = false
  describes : (s.ptes m).describes page
  counted : s.outstanding m ≤ (s.ptes m).refCount
  /-- The mapping holds the frame, or a single thread keeps it BUSY and writes the frame next. -/
  mapped : s.mapping cfg page = .frame m ∨ s.mapping cfg page = .busy ∧
    ∃ t, s.Keeps t page (.frame m) ∧ (∀ t' word, s.Keeps t' page word → t' = t) ∧
      ∀ t' action s', step cfg s t' action = some s' →
        s'.mapping cfg page = .busy ∧ s'.Keeps t page (.frame m) ∨
          t' = t ∧ s'.mapping cfg page = .frame m
  notFree : m ∉ s.freeList
  notVictim : ∀ t action s', step cfg s t action = some s' → ¬ s.Returned s' t m

/-- From the return of a pin to its `DecRefCount`, in every interleaving. -/
theorem pin_safety (handles : Handles cfg) (reachable : Reachable cfg s) (bounded : s.Bounded)
    {page : Page} {m : ℕ} (holds : s.Holds page m) : s.Pinned cfg page m := by
  have sound := reachable.sound handles
  obtain ⟨place, inv, resident, free, described, counted⟩ := sound.held holds
  refine ⟨free, (PTE.describes_iff _ _).mpr described, counted, ?_, ?_, ?_⟩
  · rcases Place.page?_eq_some.mp resident with mapped | ⟨t, locked⟩
    · have valid : cfg.Valid page := inv.valid page (by rw [(inv.mapped page m).mpr mapped]; simp)
      exact Or.inl ((viewMap_of_valid valid).symm.trans ((inv.mapped page m).mpr mapped))
    · have keeps : s.Keeps t page (.frame m) := (inv.lockedFrame t page m).mpr locked
      have valid := valid_of_locked sound.safe keeps
      refine Or.inr ⟨(viewMap_of_valid valid).symm.trans (inv.table.marked_of_mem keeps), t, keeps,
        fun t' word other => (inv.table.owner other keeps).1, fun t' action s' moved => ?_⟩
      exact sound.step_keeps handles bounded.hasRoom holds keeps moved
  · intro member
    have := (inv.free m).mp member
    simp [this, Place.page?] at resident
  · exact fun t action s' moved => sound.not_returned holds moved

/-- A thread holds a pin of the only frame while the `Victim` of another one looks at it. -/
theorem pin_safety_victim : ∃ s : State Bool, s.pc true = .victimRef ⟨⟨0, 1⟩, .fetch⟩ 0 2 ∧ s.Holds ⟨0, 0⟩ 0 ∧
    s.Pinned oneFrame ⟨0, 0⟩ 0 := by
  have final : (executeWithin oneFrame (State.fresh oneFrame Bool oneFrameDisk)
      (calling false (.fetchPageSync ⟨0, 0⟩) 9 ++ calling true (.fetchPageSync ⟨0, 1⟩) 6)).map
        (fun s => (s.pc true, s.pins)) = some (.victimRef ⟨⟨0, 1⟩, .fetch⟩ 0 2, [(⟨0, 0⟩, 0)]) := by decide +kernel
  obtain ⟨s, reachable, same⟩ := Reachable.shows (fun _ => rfl) final
  simp only [Prod.mk.injEq] at same
  obtain ⟨victim, pins⟩ := same
  have holds : s.Holds ⟨0, 0⟩ 0 := Or.inl (by rw [pins]; exact List.mem_singleton_self _)
  exact ⟨s, victim, holds, pin_safety oneFrame_handles reachable
    (State.bounded_of_pins (by rw [pins]; decide)) holds⟩

/-! ## Single residency and exclusive ownership -/

/-- No sharing between pages, frames and the owners of BUSY mappings. -/
structure State.Exclusive (cfg : PoolConfig) (s : State T) : Prop where
  frame : ∀ p q m, cfg.Valid p → cfg.Valid q → s.mapping cfg p = .frame m →
    s.mapping cfg q = .frame m → p = q
  describes : ∀ p m, cfg.Valid p → s.mapping cfg p = .frame m → (s.ptes m).describes p
  owner : ∀ t t' m, (s.pc t).taken? = some m → (s.pc t').taken? = some m → t = t'
  unmapped : ∀ t m p, (s.pc t).taken? = some m → cfg.Valid p → s.mapping cfg p ≠ .frame m
  busy : ∀ p, cfg.Valid p → s.mapping cfg p = .busy → ∃! t, ∃ word, s.Keeps t p word
  /-- The owner of a BUSY mapping is the thread whose step made it BUSY. -/
  maker : ∀ t action s', step cfg s t action = some s' → ∀ p, cfg.Valid p →
    s.mapping cfg p ≠ .busy → s'.mapping cfg p = .busy → ∃ word, s'.Keeps t p word

omit [DecidableEq T] in
/-- A taken frame is nobody else's and in no mapping. -/
private theorem taken_place {place : ℕ → Place T} (inv : Inv (files cfg) (view cfg s) place) {m : ℕ}
    (taken : (s.pc t).taken? = some m) :
    place m = .owned t ∨ ∃ page, place m = .locked t page := by
  have owned (page? : Option Page) (owner : (s.pc t).owned = some (m, page?)) : place m = .owned t :=
    (inv.owned t m).mp ⟨page?, owner⟩
  have locked (page : Page) (keeps : (page, .frame m) ∈ (s.pc t).locks) :
      ∃ page, place m = .locked t page := ⟨page, (inv.lockedFrame t page m).mp keeps⟩
  generalize here : s.pc t = pc at taken owned locked
  unfold Pc.taken? at taken
  split at taken
  · next r k =>
    cases taken
    exact Or.inr (locked r.page (List.mem_singleton_self _))
  · next r k =>
    cases taken
    exact Or.inr (locked r.page (List.mem_singleton_self _))
  · next r k =>
    cases taken
    exact Or.inr (locked r.page (List.mem_singleton_self _))
  · obtain ⟨⟨k, page?⟩, owner, rfl⟩ := Option.map_eq_some_iff.mp taken
    exact Or.inl (owned page? owner)

/-- No page, frame or BUSY mapping is shared, in every interleaving. -/
theorem single_residency (handles : Handles cfg) (reachable : Reachable cfg s)
    (bounded : s.Bounded) : s.Exclusive cfg := by
  have sound := reachable.sound handles
  obtain ⟨place, inv, _⟩ := sound.safe
  have placed {p : Page} {m : ℕ} (valid : cfg.Valid p) (mapped : s.mapping cfg p = .frame m) :
      place m = .mapped p := (inv.mapped p m).mp ((viewMap_of_valid valid).trans mapped)
  constructor
  · intro p q m validP validQ mappedP mappedQ
    exact Place.mapped.inj ((placed validP mappedP).symm.trans (placed validQ mappedQ))
  · intro p m valid mapped
    have resident : (place m).page? = some p := by rw [placed valid mapped]; rfl
    exact (PTE.describes_iff _ _).mpr (inv.described m p resident).2
  · intro t t' m taken taken'
    rcases taken_place inv taken with here | ⟨page, here⟩ <;>
      rcases taken_place inv taken' with there | ⟨page', there⟩ <;>
      rw [here] at there <;> cases there <;> rfl
  · intro t m p taken valid mapped
    have here := placed valid mapped
    rcases taken_place inv taken with there | ⟨page, there⟩ <;> simp [here] at there
  · intro p valid busy
    obtain ⟨t, word, keeps⟩ := (inv.table.marked p).mp ((viewMap_of_valid valid).trans busy)
    exact ⟨t, ⟨word, keeps⟩, fun t' ⟨word', keeps'⟩ => (inv.table.owner keeps' keeps).1⟩
  · intro t action s' moved p valid before after
    have sound' := sound.step handles bounded.hasRoom moved
    obtain ⟨place', inv', _⟩ := sound'.safe
    obtain ⟨t', word, keeps⟩ := (inv'.table.marked p).mp ((viewMap_of_valid valid).trans after)
    by_cases mine : t' = t
    · exact ⟨word, mine ▸ keeps⟩
    · obtain ⟨⟨pc, samePc, _⟩, _⟩ := kept_step sound moved
      have kept : (p, word) ∈ (s.pc t').locks := by
        change (p, word) ∈ (s'.pc t').locks at keeps
        rw [samePc, update_of_ne mine] at keeps
        exact keeps
      exact absurd ((viewMap_of_valid valid).symm.trans (inv.table.marked_of_mem kept)) before

/-- A thread has taken the only frame from its page, and another one is about to pin that page. -/
theorem single_residency_taken : ∃ s : State Bool, s.pc false = .findMapping ⟨⟨0, 0⟩, .pin⟩ ∧
    (s.pc true).taken? = some 0 ∧ s.mapping oneFrame ⟨0, 0⟩ = .busy ∧ s.Exclusive oneFrame := by
  have final : (executeWithin oneFrame (State.fresh oneFrame Bool oneFrameDisk)
      (calling false (.fetchPageSync ⟨0, 0⟩) 9 ++ calling false (.decRefCount ⟨0, 0⟩ 0) 1 ++
        calling true (.fetchPageSync ⟨0, 1⟩) 15 ++ calling false (.pin ⟨0, 0⟩) 0)).map
        (fun s => (s.pc false, (s.pc true).taken?, s.mapping oneFrame ⟨0, 0⟩, s.pins)) =
      some (.findMapping ⟨⟨0, 0⟩, .pin⟩, some 0, .busy, []) := by decide +kernel
  obtain ⟨s, reachable, same⟩ := Reachable.shows (fun _ => rfl) final
  simp only [Prod.mk.injEq] at same
  obtain ⟨asks, taken, busy, pins⟩ := same
  exact ⟨s, asks, taken, busy, single_residency oneFrame_handles reachable
    (State.bounded_of_pins (by rw [pins]; decide))⟩

/-- The 65536th pin of a page carries into the handle its frame names. -/
theorem overflow_misdescribes : ∃ s : State Unit, Unbounded onePage s ∧ Handles onePage ∧
    onePage.Valid ⟨0, 0⟩ ∧ s.mapping onePage ⟨0, 0⟩ = .frame 0 ∧ ¬ (s.ptes 0).describes ⟨0, 0⟩ := by
  obtain ⟨s, reachable, idle, _, mapped, word⟩ := exists_pinned
  have run : Unbounded onePage s := reachable.mono (fun _ => id) fun _ _ => And.right
  have carried := run.overflow idle (by decide) mapped (by rw [word]; rfl)
    (by rw [word]; exact ⟨rfl, rfl⟩) 65533 (by rw [word]; rfl) (by rw [word]; decide)
  refine ⟨_, carried, onePage_handles, by decide, mapped, ?_⟩
  rw [State.pinned_pte]
  rintro ⟨_, handle⟩
  simp [PTE.carry] at handle

end Gbp.Concurrent
