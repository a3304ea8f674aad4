import GraphBufferPool.Concurrent.View
import GraphBufferPool.Concurrent.Contents

/-! # The interleaving model follows the protocol

Each machine step is a sequence of protocol moves of its view: one lemma for each program counter
that changes something a thread holds.
-/

namespace Gbp.Concurrent

open Function Protocol

variable {T : Type} [DecidableEq T] {cfg : PoolConfig}

section moves

variable [Fintype T] {s s' : State T} {t : T}

/-- One protocol move. -/
theorem moves_one {v v' w : View T} (room : v.HasRoom) (move : Protocol.Step (files cfg) v w)
    (same : w = v') : Moves (files cfg) v v' :=
  same ▸ .single ⟨room, move⟩

theorem moves_goto {pc : Pc} (same : pc.roles = (s.pc t).roles) :
    Moves (files cfg) (view cfg s) (view cfg (s.goto t pc)) := by
  rw [view_goto_same same]

/-! ## `Pin` and `DecRefCount` -/

theorem moves_findMapping {r : Request} (here : s.pc t = .findMapping r)
    (valid : cfg.Valid r.page) (room : (view cfg s).HasRoom)
    (moved : next cfg s t (.findMapping r) = some s') :
    Moves (files cfg) (view cfg s) (view cfg s') := by
  simp only [next] at moved
  split at moved
  · next m found =>
    cases moved
    have found : (view cfg s).map r.page = .frame m := (viewMap_of_valid valid).trans found
    apply moves_one room (.aim t found (congrArg Pc.aim here))
    rw [view_goto]
    simp only [view, here, View.mk.injEq, eq_update_self_iff, comp_apply, true_and]
    and_intros <;> rfl
  · cases moved
    exact moves_goto (by rw [here, roles_pinFailed]; rfl)

theorem moves_incRefCount {r : Request} {m : ℕ} (here : s.pc t = .incRefCount r m)
    (room : (view cfg s).HasRoom) (moved : next cfg s t (.incRefCount r m) = some s') :
    Moves (files cfg) (view cfg s) (view cfg s') := by
  simp only [next, Option.some.injEq] at moved
  subst moved
  have aimed : (view cfg s).aim t = some m := congrArg Pc.aim here
  have idle : (view cfg s).ref t = none := congrArg Pc.ref here
  split_ifs with busy describes
  · apply moves_one room (.missBusy t aimed busy)
    rw [view_goto_congr (roles_pinFailed r), view_goto]
    simp only [view, State.setPte, here, View.mk.injEq, eq_update_self_iff, comp_apply, true_and]
    and_intros <;> rfl
  · have free : (s.ptes m).busy = false := by simpa using busy
    have described : ∀ page ∈ some r.page, ((view cfg s).pte m).page = page := by
      rintro _ ⟨⟩
      exact (PTE.describes_iff _ _).mp describes
    apply moves_one room (.takeRef t aimed free idle described)
    rw [view_goto]
    simp only [view, State.setPte, here, View.mk.injEq, eq_update_self_iff, comp_apply, true_and]
    and_intros <;> rfl
  · have free : (s.ptes m).busy = false := by simpa using busy
    have nothing : ∀ page ∈ (none : Option Page), ((view cfg s).pte m).page = page := by simp
    apply moves_one room (.takeRef t aimed free idle nothing)
    rw [view_goto]
    simp only [view, State.setPte, here, View.mk.injEq, eq_update_self_iff, comp_apply, true_and]
    and_intros <;> rfl

theorem moves_undoRefCount {r : Request} {m : ℕ} (here : s.pc t = .undoRefCount r m)
    (room : (view cfg s).HasRoom) (moved : next cfg s t (.undoRefCount r m) = some s') :
    Moves (files cfg) (view cfg s) (view cfg s') := by
  simp only [next, Option.some.injEq] at moved
  subst moved
  apply moves_one room (.dropRef t (congrArg Pc.ref here) (congrArg Pc.wrote here))
  rw [view_goto_congr (roles_pinFailed r), view_goto]
  simp only [view, State.setPte, here, View.mk.injEq, eq_update_self_iff, comp_apply, true_and]
  and_intros <;> rfl

/-- A thread gives its pin to the caller of the pool. -/
private theorem moves_keepPin {page : Page} {m : ℕ}
    (pinned : (s.pc t).roles = (Pc.decRefCount page m).roles) (room : (view cfg s).HasRoom) :
    Moves (files cfg) (view cfg s)
      (view cfg { s.goto t .idle with pins := (page, m) :: s.pins }) := by
  simp only [Pc.roles, Prod.mk.injEq] at pinned
  obtain ⟨locks, pteLock, owned, ref, aim, candidate, wrote, saved, filled⟩ := pinned
  apply moves_one room (.keepPin t ref wrote)
  change _ = { view cfg (s.goto t .idle) with pins := (page, m) :: s.pins }
  rw [view_goto]
  simp only [view, View.mk.injEq, eq_update_self_iff, comp_apply, true_and, locks, pteLock, owned,
    aim, candidate, wrote, saved, filled]
  and_intros <;> rfl

/-- Returning a pinned frame: the pin is kept, or `SetBlock` goes on with it. -/
private theorem moves_finish {r : Request} {m : ℕ}
    (pinned : (s.pc t).roles = (Pc.decRefCount r.page m).roles) (room : (view cfg s).HasRoom) :
    Moves (files cfg) (view cfg s) (view cfg (s.finish t r m)) := by
  unfold State.finish
  cases r.goal with
  | pin => exact moves_keepPin pinned room
  | fetch => exact moves_keepPin pinned room
  | setBlock stores => exact moves_goto (by rw [pinned]; rfl)

theorem moves_promote {r : Request} {m : ℕ} (here : s.pc t = .promote r m)
    (room : (view cfg s).HasRoom) (moved : next cfg s t (.promote r m) = some s') :
    Moves (files cfg) (view cfg s) (view cfg s') := by
  simp only [next, Option.some.injEq] at moved
  subst moved
  have same : view cfg { s with list := s.list.setValue m 1 } = view cfg s := rfl
  rw [← same]
  exact moves_finish (by rw [here]; rfl) room

theorem moves_decRefCount {page : Page} {m : ℕ} (here : s.pc t = .decRefCount page m)
    (room : (view cfg s).HasRoom) (moved : next cfg s t (.decRefCount page m) = some s') :
    Moves (files cfg) (view cfg s) (view cfg s') := by
  simp only [next, Option.some.injEq] at moved
  subst moved
  apply moves_one room (.dropRef t (congrArg Pc.ref here) (congrArg Pc.wrote here))
  rw [view_goto]
  simp only [view, State.setPte, here, View.mk.injEq, eq_update_self_iff, comp_apply, true_and]
  and_intros <;> rfl

/-! ## Writers -/

private theorem moves_setDirty {pc : Pc} {page : Page} {m : ℕ} {pc' : Pc} (here : s.pc t = pc)
    (room : (view cfg s).HasRoom) (held : pc.ref = some (m, some page))
    (marked : pc'.roles = (pc.locks, pc.pteLock, pc.owned, pc.ref, pc.aim, pc.candidate, false,
      pc.saved, pc.filled)) :
    Moves (files cfg) (view cfg s)
      (view cfg ((s.setPte m ((s.ptes m).setDirty true)).goto t pc')) := by
  subst here
  apply moves_one room (.setDirty t held)
  simp only [Pc.roles, Prod.mk.injEq] at marked
  obtain ⟨locks, pteLock, owned, ref, aim, candidate, wrote, saved, filled⟩ := marked
  rw [view_goto, locks, pteLock, owned, ref, aim, candidate, wrote, saved, filled]
  simp only [view, State.setPte, View.mk.injEq, eq_update_self_iff, comp_apply, true_and, and_true]
  and_intros <;> rfl

private theorem moves_store {pc pc' : Pc} {page : Page} {m i : ℕ} {byte : UInt8}
    (here : s.pc t = pc) (room : (view cfg s).HasRoom) (held : pc.ref = some (m, some page))
    (stored : pc'.roles = (pc.locks, pc.pteLock, pc.owned, pc.ref, pc.aim, pc.candidate, true,
      pc.saved, pc.filled)) :
    Moves (files cfg) (view cfg s) (view cfg ((s.store page m i byte).goto t pc')) := by
  subst here
  apply moves_one room (.storeByte t i byte held)
  simp only [Pc.roles, Prod.mk.injEq] at stored
  obtain ⟨locks, pteLock, owned, ref, aim, candidate, wrote, saved, filled⟩ := stored
  rw [view_goto, locks, pteLock, owned, ref, aim, candidate, wrote, saved, filled]
  simp only [view, State.store, View.mk.injEq, eq_update_self_iff, comp_apply, true_and, and_true]
  and_intros <;> rfl

theorem moves_setObject {page : Page} {m : ℕ} {stores : Stores} {wrote : Bool}
    (here : s.pc t = .setObject page m stores wrote) (room : (view cfg s).HasRoom)
    (moved : next cfg s t (.setObject page m stores wrote) = some s') :
    Moves (files cfg) (view cfg s) (view cfg s') := by
  cases stores with
  | nil =>
    cases moved
    exact moves_goto (by rw [here]; rfl)
  | cons store rest =>
    cases moved
    exact moves_store here room rfl rfl

theorem moves_update {page : Page} {m : ℕ} {stores : Stores} {wrote : Bool}
    (here : s.pc t = .update page m stores wrote) (room : (view cfg s).HasRoom)
    (moved : next cfg s t (.update page m stores wrote) = some s') :
    Moves (files cfg) (view cfg s) (view cfg s') := by
  cases stores with
  | nil =>
    cases moved
    exact moves_goto (by rw [here]; rfl)
  | cons store rest =>
    cases moved
    exact moves_store here room rfl rfl

theorem moves_decDirty {page : Page} {m : ℕ} {wrote : Bool} (here : s.pc t = .decDirty page m wrote)
    (room : (view cfg s).HasRoom) (moved : next cfg s t (.decDirty page m wrote) = some s') :
    Moves (files cfg) (view cfg s) (view cfg s') := by
  cases moved
  exact moves_setDirty here room rfl rfl

theorem moves_updateDirty {page : Page} {m : ℕ} {wrote : Bool}
    (here : s.pc t = .updateDirty page m wrote) (room : (view cfg s).HasRoom)
    (moved : next cfg s t (.updateDirty page m wrote) = some s') :
    Moves (files cfg) (view cfg s) (view cfg s') := by
  cases moved
  have dirty : Moves (files cfg) (view cfg s) (view cfg
      ((s.setPte m ((s.ptes m).setDirty true)).goto t (.decRefCount page m))) :=
    moves_setDirty here room rfl rfl
  apply dirty.trans
  have pinned : (((s.setPte m ((s.ptes m).setDirty true)).goto t (.decRefCount page m)).pc t).roles =
      (Pc.decRefCount page m).roles := by rw [goto_pc]
  have kept : Moves (files cfg) _ _ := moves_keepPin pinned room
  rw [goto_goto] at kept
  exact kept

/-! ## `LockMapping` and `UnLockMapping` -/

/-- `Victim` goes on to another linked frame, or drops what it read about this one. -/
private theorem moves_select {pc pc' : Pc} {toEvict m : ℕ} {page? : Option Page}
    (safe : Safe (files cfg) (view cfg s)) (here : s.pc t = pc) (room : (view cfg s).HasRoom)
    (chosen : pc.candidate = some (m, page?)) (member : toEvict ∈ s.list.nodes)
    (next : pc'.roles = (pc.locks, pc.pteLock, pc.owned, pc.ref, pc.aim, some (toEvict, none),
      pc.wrote, pc.saved, pc.filled)) :
    Moves (files cfg) (view cfg s) (view cfg (s.goto t pc')) := by
  subst here
  obtain ⟨place, inv, _⟩ := safe
  obtain ⟨latch, _⟩ := inv.candidate t m page? chosen
  apply moves_one room (.select t latch member)
  simp only [Pc.roles, Prod.mk.injEq] at next
  obtain ⟨locks, pteLock, owned, ref, aim, candidate, wrote, saved, filled⟩ := next
  rw [view_goto, locks, pteLock, owned, ref, aim, candidate, wrote, saved, filled]
  simp only [view, View.mk.injEq, eq_update_self_iff, comp_apply, and_true]

omit [DecidableEq T] in
/-- The candidate is linked while `Victim` looks at it. -/
private theorem candidate_linked {m : ℕ} {page? : Option Page}
    (safe : Safe (files cfg) (view cfg s)) (chosen : (s.pc t).candidate = some (m, page?)) :
    m ∈ s.list.nodes := by
  obtain ⟨place, inv, _⟩ := safe
  exact (inv.candidate t m page? chosen).2.1

/-- `LockMapping` gave up before or after locking anything. -/
theorem moves_lockFailed {caller : Caller} {page : Page}
    (safe : Safe (files cfg) (view cfg s)) (room : (view cfg s).HasRoom)
    (released : (s.pc t).roles = (Pc.lockLoad caller page).roles) :
    Moves (files cfg) (view cfg s) (view cfg (s.goto t (lockFailed caller))) := by
  cases caller with
  | fetch r => exact moves_goto (by rw [released]; rfl)
  | victim r toEvict count =>
    simp only [Pc.roles, Prod.mk.injEq] at released
    obtain ⟨locks, pteLock, owned, ref, aim, candidate, wrote, saved, filled⟩ := released
    apply moves_select safe rfl room candidate (candidate_linked safe candidate)
    rw [locks, pteLock, owned, ref, aim, wrote, saved, filled]
    rfl

theorem moves_lockSeen {caller : Caller} {page : Page} {word : MapWord}
    (safe : Safe (files cfg) (view cfg s)) (room : (view cfg s).HasRoom)
    (released : (s.pc t).roles = (Pc.lockLoad caller page).roles) :
    Moves (files cfg) (view cfg s) (view cfg (s.goto t (lockSeen caller page word))) := by
  unfold lockSeen
  split_ifs with busy
  · exact moves_lockFailed safe room released
  · exact moves_goto (by rw [released]; rfl)

omit [DecidableEq T] in
/-- A page whose mapping is not empty belongs to the pool. -/
theorem valid_of_candidate {m : ℕ} {page : Page} (safe : Safe (files cfg) (view cfg s))
    (chosen : (s.pc t).candidate = some (m, some page)) : cfg.Valid page := by
  obtain ⟨place, inv, _⟩ := safe
  obtain ⟨_, linked, described⟩ := inv.candidate t m (some page) chosen
  obtain ⟨page', resident⟩ := inv.inList m linked
  obtain rfl : page' = page := (inv.described m page' resident).2.symm.trans (described page rfl)
  apply inv.valid page'
  intro empty
  rcases Place.page?_eq_some.mp resident with mapped | ⟨t', locked⟩
  · rw [(inv.mapped page' m).mpr mapped] at empty
    cases empty
  · rw [inv.table.marked_of_mem ((inv.lockedFrame t' page' m).mpr locked)] at empty
    cases empty

omit [DecidableEq T] in
theorem valid_of_locked {page : Page} {word : MapWord}
    (safe : Safe (files cfg) (view cfg s)) (member : (page, word) ∈ (s.pc t).locks) :
    cfg.Valid page := by
  obtain ⟨place, inv, _⟩ := safe
  apply inv.valid page
  rw [inv.table.marked_of_mem member]
  simp

theorem moves_lockCas {caller : Caller} {page : Page} {old : MapWord}
    (here : s.pc t = .lockCas caller page old) (proper : (s.pc t).Proper cfg)
    (safe : Safe (files cfg) (view cfg s)) (room : (view cfg s).HasRoom)
    (moved : next cfg s t (.lockCas caller page old) = some s') :
    Moves (files cfg) (view cfg s) (view cfg s') := by
  rw [here] at proper
  simp only [next] at moved
  split_ifs at moved with unchanged
  · cases moved
    have notBusy : old ≠ .busy := by
      cases caller with
      | fetch r => exact proper.2.2
      | victim r toEvict count => exact proper.2
    have valid : cfg.Valid page := by
      cases caller with
      | fetch r => exact proper.2.1 ▸ proper.1 r rfl
      | victim r toEvict count =>
        exact valid_of_candidate safe (t := t) (m := toEvict) (by rw [here]; rfl)
    have found : (view cfg s).map page = old := (viewMap_of_valid valid).trans unchanged
    refine moves_one room (.lockMap t (by rw [found]; exact notBusy) valid (congrArg Pc.owned here)
      (congrArg Pc.pteLock here)) ?_
    rw [view_goto, found]
    simp only [view, viewMap_setMapping valid, setMapping_pc, here, View.mk.injEq, eq_update_self_iff,
      comp_apply, true_and]
    cases old with
    | busy => exact absurd rfl notBusy
    | empty =>
      cases caller with
      | fetch r =>
        obtain rfl := proper.2.1
        and_intros <;> rfl
      | victim r toEvict count => and_intros <;> rfl
    | frame m => and_intros <;> rfl
  · cases moved
    exact moves_lockSeen safe room (by rw [here]; rfl)

/-- `Lock` loaded the entry: it tries the exchange, or gives the mapping back. -/
theorem moves_pteLockSeen {caller : Caller} {page : Page} {m : ℕ} {word : PTE}
    (locked : (s.pc t).roles = (Pc.pteLockLoad caller page m).roles) :
    Moves (files cfg) (view cfg s) (view cfg (s.goto t (pteLockSeen caller page m word))) := by
  unfold pteLockSeen
  split_ifs <;> exact moves_goto (by rw [locked]; rfl)

theorem moves_pteLockCas {caller : Caller} {page : Page} {m : ℕ} {old : PTE}
    (here : s.pc t = .pteLockCas caller page m old) (room : (view cfg s).HasRoom)
    (moved : next cfg s t (.pteLockCas caller page m old) = some s') :
    Moves (files cfg) (view cfg s) (view cfg s') := by
  simp only [next] at moved
  split_ifs at moved with unchanged
  · obtain ⟨new, locked, rfl⟩ := Option.map_eq_some_iff.mp moved
    refine moves_one room (.lockPte t (congrArg Pc.locks here) (unchanged ▸ locked)
      (congrArg Pc.pteLock here)) ?_
    rw [view_goto]
    simp only [view, State.setPte, here, View.mk.injEq, eq_update_self_iff, comp_apply, true_and]
    cases caller <;> and_intros <;> rfl
  · cases moved
    exact moves_pteLockSeen (by rw [here]; rfl)

theorem moves_unLockTest {caller : Caller} {page : Page} {value : MapWord}
    (here : s.pc t = .unLockTest caller page value)
    (moved : next cfg s t (.unLockTest caller page value) = some s') :
    Moves (files cfg) (view cfg s) (view cfg s') := by
  simp only [next] at moved
  cases value with
  | empty =>
    cases moved
    exact moves_goto (by rw [here]; rfl)
  | busy =>
    cases moved
    exact moves_goto (by rw [here]; rfl)
  | frame m =>
    simp only at moved
    split_ifs at moved
    cases moved
    exact moves_goto (by rw [here]; rfl)

theorem moves_pteUnLockCas {caller : Caller} {page : Page} {m : ℕ} {old : PTE}
    (here : s.pc t = .pteUnLockCas caller page m old) (room : (view cfg s).HasRoom)
    (moved : next cfg s t (.pteUnLockCas caller page m old) = some s') :
    Moves (files cfg) (view cfg s) (view cfg s') := by
  simp only [next] at moved
  split_ifs at moved with unchanged busy
  · obtain ⟨new, unlocked, rfl⟩ := Option.map_eq_some_iff.mp moved
    apply moves_one room (.unlockPte t (congrArg Pc.pteLock here) (unchanged ▸ unlocked))
    rw [view_goto]
    simp only [view, State.setPte, here, View.mk.injEq, eq_update_self_iff, comp_apply, true_and]
    and_intros <;> rfl
  · cases moved
    exact moves_goto (by rw [here]; rfl)

/-- Writing a mapping back hands it over with the word the thread had decided on. -/
private theorem moves_unlockMap {pc pc' : Pc} {page : Page} {word : MapWord}
    {rest : List (Page × MapWord)} (safe : Safe (files cfg) (view cfg s)) (here : s.pc t = pc)
    (room : (view cfg s).HasRoom) (held : pc.locks = (page, word) :: rest)
    (unlocked : pc.pteLock = none) (idle : pc.owned = none)
    (after : pc'.roles = (rest, pc.pteLock, pc.owned, pc.ref, pc.aim, pc.candidate, pc.wrote,
      pc.saved, pc.filled)) :
    Moves (files cfg) (view cfg s) (view cfg ((s.setMapping cfg page word).goto t pc')) := by
  subst here
  have valid : cfg.Valid page := valid_of_locked safe (t := t) (by rw [held]; exact List.mem_cons_self ..)
  apply moves_one room (.unlockMap t held unlocked idle)
  simp only [Pc.roles, Prod.mk.injEq] at after
  obtain ⟨locks, pteLock, owned, ref, aim, candidate, wrote, saved, filled⟩ := after
  rw [view_goto, locks, pteLock, owned, ref, aim, candidate, wrote, saved, filled]
  simp only [view, viewMap_setMapping valid, setMapping_pc, View.mk.injEq, eq_update_self_iff, comp_apply,
    true_and, and_true]
  and_intros <;> rfl

theorem moves_writeCas {write : MapWrite} (here : s.pc t = .writeCas write)
    (safe : Safe (files cfg) (view cfg s)) (room : (view cfg s).HasRoom)
    (moved : next cfg s t (.writeCas write) = some s') :
    Moves (files cfg) (view cfg s) (view cfg s') := by
  simp only [next] at moved
  split_ifs at moved with marked
  cases moved
  -- The mapping is written first; what the thread does next is a move of its own.
  have givenBack (caller : Caller) {page : Page} {word : MapWord}
      (held : (Pc.writeCas write).locks = (page, word) :: caller.locks)
      (kept : (Pc.writeCas write).roles = ((page, word) :: caller.locks, none, none, none, none,
        caller.candidate page, false, false, false)) :
      Moves (files cfg) (view cfg s)
        (view cfg ((s.setMapping cfg page word).goto t (lockFailed caller))) := by
    simp only [Pc.roles, Prod.mk.injEq] at kept
    obtain ⟨-, pteLock, owned, ref, aim, candidate, wrote, saved, filled⟩ := kept
    have released : Moves (files cfg) (view cfg s)
        (view cfg ((s.setMapping cfg page word).goto t (.lockLoad caller page))) :=
      moves_unlockMap safe here room held pteLock owned
        (by rw [pteLock, owned, ref, aim, candidate, wrote, saved, filled]; rfl)
    apply released.trans
    have free : (((s.setMapping cfg page word).goto t (.lockLoad caller page)).pc t).roles =
        (Pc.lockLoad caller page).roles := by rw [goto_pc]
    have failed := moves_lockFailed (safe.moves released) room free
    rwa [goto_goto] at failed
  cases write with
  | restore caller page m => exact givenBack caller rfl rfl
  | unlocked caller page value =>
    cases caller with
    | fetch r => exact givenBack (.fetch r) rfl rfl
    | victim r toEvict count => exact givenBack (.victim r toEvict count) rfl rfl
  | deleted r m victim =>
    have valid : cfg.Valid victim :=
      valid_of_locked safe (t := t) (by rw [here]; exact List.mem_cons_self ..)
    refine moves_one room (.delete t (congrArg Pc.locks here) (congrArg Pc.owned here)
      (congrArg Pc.saved here)) ?_
    change _ = view cfg ((s.setMapping cfg victim .empty).goto t (.loadRead r m))
    rw [view_goto]
    simp only [view, viewMap_setMapping valid, setMapping_pc, here, View.mk.injEq,
      eq_update_self_iff, comp_apply, true_and]
    and_intros <;> rfl
  | created r m =>
    have released : Moves (files cfg) (view cfg s)
        (view cfg ((s.setMapping cfg r.page (.frame m)).goto t (.decRefCount r.page m))) :=
      moves_unlockMap safe here room rfl rfl rfl rfl
    apply released.trans
    have pinned : (((s.setMapping cfg r.page (.frame m)).goto t (.decRefCount r.page m)).pc t).roles =
        (Pc.decRefCount r.page m).roles := by rw [goto_pc]
    have done : Moves (files cfg) _ _ := moves_finish pinned room
    rwa [finish_goto] at done

/-! ## `Victim`, eviction and load -/

theorem moves_initing {r : Request} (here : s.pc t = .initing r) (room : (view cfg s).HasRoom)
    (moved : next cfg s t (.initing r) = some s') :
    Moves (files cfg) (view cfg s) (view cfg s') := by
  simp only [next] at moved
  split at moved
  · next m rest first =>
    cases moved
    apply moves_one room (.poll t first (congrArg Pc.owned here))
    rw [view_goto]
    simp only [view, here, View.mk.injEq, eq_update_self_iff, comp_apply, true_and]
    and_intros <;> rfl
  · cases moved
    exact moves_goto (by rw [here]; rfl)

theorem moves_victimBegin {r : Request} (here : s.pc t = .victimBegin r)
    (safe : Safe (files cfg) (view cfg s)) (room : (view cfg s).HasRoom)
    (moved : next cfg s t (.victimBegin r) = some s') :
    Moves (files cfg) (view cfg s) (view cfg s') := by
  simp only [next] at moved
  split_ifs at moved with latched noFrames
  · split at moved <;> cases moved
  have free : s.latch = none := by simpa using latched
  split at moved
  · next i start =>
    cases moved
    have member : i ∈ s.list.nodes := by
      obtain ⟨place, inv, _⟩ := safe
      unfold State.sweepStart at start
      split_ifs at start
      · exact ListArray.getTail_mem start
      · exact inv.handLinked i start
    apply moves_one room (.acquire t free member)
    rw [view_goto]
    simp only [view, here, View.mk.injEq, eq_update_self_iff, comp_apply, true_and]
    and_intros <;> rfl
  · cases moved

private theorem moves_sweepTo {pc : Pc} {r : Request} {toEvict count m : ℕ} {page? : Option Page}
    (safe : Safe (files cfg) (view cfg s)) (here : s.pc t = pc) (room : (view cfg s).HasRoom)
    (chosen : pc.candidate = some (m, page?))
    (sweeping : ∀ i, (Pc.sweep r i count).roles = (pc.locks, pc.pteLock, pc.owned, pc.ref, pc.aim,
      some (i, none), pc.wrote, pc.saved, pc.filled))
    (moved : s.sweepTo t r toEvict count = some s') :
    Moves (files cfg) (view cfg s) (view cfg s') := by
  unfold State.sweepTo at moved
  split at moved
  · next i swept =>
    cases moved
    exact moves_select safe here room chosen (ListArray.sweepFrom_mem swept) (sweeping i)
  · cases moved

theorem moves_sweepSub {r : Request} {toEvict count : ℕ} (here : s.pc t = .sweepSub r toEvict count)
    (safe : Safe (files cfg) (view cfg s)) (room : (view cfg s).HasRoom)
    (moved : next cfg s t (.sweepSub r toEvict count) = some s') :
    Moves (files cfg) (view cfg s) (view cfg s') :=
  moves_sweepTo (s := { s with list := s.list.setValue toEvict (s.list.val toEvict - 1) }) safe here
    room rfl (fun _ => rfl) moved

theorem moves_victimLoad {r : Request} {toEvict count : ℕ}
    (here : s.pc t = .victimLoad r toEvict count) (room : (view cfg s).HasRoom)
    (moved : next cfg s t (.victimLoad r toEvict count) = some s') :
    Moves (files cfg) (view cfg s) (view cfg s') := by
  cases moved
  apply moves_one room (.identify t (congrArg Pc.candidate here))
  rw [view_goto]
  simp only [view, here, View.mk.injEq, eq_update_self_iff, comp_apply, true_and]
  and_intros <;> rfl

theorem moves_victimTest {r : Request} {toEvict count : ℕ} {victim : Page} {value : MapWord}
    (here : s.pc t = .victimTest r toEvict count victim value)
    (safe : Safe (files cfg) (view cfg s)) (room : (view cfg s).HasRoom)
    (linked : ∀ i ∈ s.list.nodes, i < s.list.capacity)
    (moved : next cfg s t (.victimTest r toEvict count victim value) = some s') :
    Moves (files cfg) (view cfg s) (view cfg s') := by
  simp only [next] at moved
  split_ifs at moved with chosen
  · cases moved
    have member : toEvict ∈ s.list.nodes := candidate_linked safe (t := t) (by rw [here]; rfl)
    have distinct : s.list.nodes.Nodup := by
      obtain ⟨place, inv, _⟩ := safe
      exact inv.listNodup
    have removed : s.list.removeFromIndex toEvict =
        { s.list with nodes := s.list.nodes.erase toEvict } := by
      unfold ListArray.removeFromIndex
      rw [if_neg (by have := linked toEvict member; omega)]
    cases value with
    | empty => exact absurd rfl chosen.2
    | busy =>
      obtain ⟨place, inv, _⟩ := safe
      have held : (victim, .busy) ∈ (view cfg s).locks t := by
        change _ ∈ (s.pc t).locks
        rw [here]
        exact List.mem_cons_self ..
      exact absurd held (inv.table.unmarked t victim)
    | frame k =>
      have notInvalid := ListArray.getPrevNodeIndex_ne_invalid member
      have stillLinked (i : ℕ) (hand : s.list.getPrevNodeIndex toEvict = .node i) :=
        ListArray.getPrevNodeIndex_mem_erase distinct hand
      refine moves_one room (.evict t (congrArg Pc.locks here) (congrArg Pc.pteLock here)
        (congrArg Pc.candidate here) (congrArg Pc.owned here) notInvalid stillLinked) ?_
      rw [view_goto, removed]
      simp only [view, here, View.mk.injEq, eq_update_self_iff, comp_apply, true_and]
      and_intros <;> rfl
  · cases moved
    exact moves_goto (by rw [here]; cases value <;> rfl)

theorem moves_victimUnLock {r : Request} {toEvict count : ℕ} {victim : Page} {value : MapWord}
    (here : s.pc t = .victimUnLock r toEvict count victim value)
    (safe : Safe (files cfg) (view cfg s))
    (moved : next cfg s t (.victimUnLock r toEvict count victim value) = some s') :
    Moves (files cfg) (view cfg s) (view cfg s') := by
  cases moved
  obtain ⟨place, inv, _⟩ := safe
  obtain ⟨_, _, described⟩ := inv.candidate t toEvict (some victim) (congrArg Pc.candidate here)
  have same : (s.ptes toEvict).page = victim := described victim rfl
  rw [same]
  exact moves_goto (by rw [here]; cases value <;> rfl)

theorem moves_victimNext {r : Request} {toEvict count : ℕ}
    (here : s.pc t = .victimNext r toEvict count) (safe : Safe (files cfg) (view cfg s))
    (room : (view cfg s).HasRoom)
    (moved : next cfg s t (.victimNext r toEvict count) = some s') :
    Moves (files cfg) (view cfg s) (view cfg s') := by
  simp only [next] at moved
  split_ifs at moved
  exact moves_sweepTo safe here room rfl (fun _ => rfl) moved

theorem moves_evictDirty {r : Request} {m : ℕ} {victim : Page}
    (here : s.pc t = .evictDirty r m victim) (room : (view cfg s).HasRoom)
    (moved : next cfg s t (.evictDirty r m victim) = some s') :
    Moves (files cfg) (view cfg s) (view cfg s') := by
  simp only [next, Option.some.injEq] at moved
  subst moved
  split_ifs with dirty
  · exact moves_goto (by rw [here]; rfl)
  · have clean : (s.ptes m).dirty = false := by simpa using dirty
    apply moves_one room (.saveClean t (congrArg Pc.owned here) clean)
    rw [view_goto]
    simp only [view, here, View.mk.injEq, eq_update_self_iff, comp_apply, true_and]
    and_intros <;> rfl

omit [DecidableEq T] in
/-- The page an evicting thread removes is the one its frame describes. -/
theorem evicting_page {m : ℕ} {victim : Page} (safe : Safe (files cfg) (view cfg s))
    (owner : (s.pc t).owned = some (m, some victim)) :
    (s.ptes m).page = victim ∧ cfg.Valid victim := by
  have locked : (victim, .empty) ∈ (s.pc t).locks := by
    obtain ⟨place, inv, _⟩ := safe
    exact (inv.evicting t m victim owner).2.2
  refine ⟨?_, valid_of_locked safe locked⟩
  obtain ⟨place, inv, _⟩ := safe
  exact (inv.evicting t m victim owner).2.1

omit [DecidableEq T] [Fintype T] in
/-- A write-back changes the in-file bytes of its page and of no other. -/
theorem viewDisk_writeBack {m : ℕ} {victim : Page} (described : (s.ptes m).page = victim)
    (valid : cfg.Valid victim) (exact : (s.disk victim.fd).length = cfg.fileSize victim.fd) :
    (∀ i, cfg.InFile victim i → (s.writeBack cfg m).viewDisk victim i = s.memory m i) ∧
      ∀ other, other ≠ victim → ∀ i, cfg.InFile other i →
        (s.writeBack cfg m).viewDisk other i = s.viewDisk other i := by
  have written := RWSysCall.write_byte exact (cfg.fileSize_lt victim.fd) valid.1 (s.memory m) pageSize
  constructor
  · intro i inside
    simp only [State.viewDisk, State.writeBack, described, update_self]
    rw [written, if_pos ⟨by omega, by have := inside.1; omega, inside.2⟩]
    congr 1
    omega
  · intro other differs i inside
    simp only [State.viewDisk, State.writeBack, described]
    by_cases sameFd : other.fd = victim.fd
    · rw [sameFd, update_self, written, if_neg]
      have apart : other.fpageId ≠ victim.fpageId := by
        intro same
        exact differs (by cases other; cases victim; simp_all)
      have := inside.1
      simp only [pageSize] at *
      omega
    · rw [update_of_ne sameFd]

theorem moves_evictWrite {r : Request} {m : ℕ} {victim : Page}
    (here : s.pc t = .evictWrite r m victim) (safe : Safe (files cfg) (view cfg s))
    (room : (view cfg s).HasRoom) (exact : ∀ fd, (s.disk fd).length = cfg.fileSize fd)
    (moved : next cfg s t (.evictWrite r m victim) = some s') :
    Moves (files cfg) (view cfg s) (view cfg s') := by
  cases moved
  obtain ⟨described, valid⟩ := evicting_page safe (t := t) (m := m) (by rw [here]; rfl)
  obtain ⟨written, others⟩ := viewDisk_writeBack described valid (exact victim.fd)
  apply moves_one room (.saveDirty t (congrArg Pc.owned here) written others)
  rw [view_goto]
  simp only [view, State.writeBack, here, View.mk.injEq, eq_update_self_iff, comp_apply, true_and]
  and_intros <;> rfl

theorem moves_evictDelete {r : Request} {m : ℕ} {victim : Page}
    (here : s.pc t = .evictDelete r m victim) (safe : Safe (files cfg) (view cfg s))
    (moved : next cfg s t (.evictDelete r m victim) = some s') :
    Moves (files cfg) (view cfg s) (view cfg s') := by
  cases moved
  have owner : (s.pc t).owned = some (m, some victim) := by rw [here]; rfl
  rw [(evicting_page safe owner).1]
  exact moves_goto (by rw [here]; rfl)

theorem moves_loadRead {r : Request} {m : ℕ} (here : s.pc t = .loadRead r m)
    (room : (view cfg s).HasRoom) (moved : next cfg s t (.loadRead r m) = some s') :
    Moves (files cfg) (view cfg s) (view cfg s') := by
  cases moved
  have filled : ∀ i, (files cfg).InFile r.page i →
      RWSysCall.read (s.disk r.page.fd) (r.page.fpageId * pageSize) (s.memory m) pageSize i =
        (view cfg s).disk r.page i := fun i inside =>
    RWSysCall.read_byte _ _ _ inside.1
  apply moves_one room (.readPage t (congrArg Pc.locks here) (congrArg Pc.owned here) filled)
  rw [view_goto]
  simp only [view, State.readPage, here, View.mk.injEq, eq_update_self_iff, comp_apply, true_and]
  and_intros <;> rfl

theorem moves_loadStore {r : Request} {m : ℕ} (here : s.pc t = .loadStore r m)
    (room : (view cfg s).HasRoom) (handle : r.page.fd < 2 ^ 13) (id : r.page.fpageId < 2 ^ 32)
    (moved : next cfg s t (.loadStore r m) = some s') :
    Moves (files cfg) (view cfg s) (view cfg s') := by
  cases moved
  refine moves_one room (.store t (congrArg Pc.locks here) (congrArg Pc.owned here)
    (congrArg Pc.ref here) (congrArg Pc.pteLock here) (congrArg Pc.filled here) (by rfl) (by rfl)
    (by rfl) (PTE.loaded_page handle id)) ?_
  rw [view_goto]
  simp only [view, State.setPte, here, View.mk.injEq, eq_update_self_iff, comp_apply, true_and]
  and_intros <;> rfl

theorem moves_insert {r : Request} {m : ℕ} (here : s.pc t = .insert r m)
    (room : (view cfg s).HasRoom) (moved : next cfg s t (.insert r m) = some s') :
    Moves (files cfg) (view cfg s) (view cfg s') := by
  simp only [next, ListArray.moveToFront] at moved
  split_ifs at moved with latched past
  cases moved
  have free : s.latch = none := by simpa using latched
  apply moves_one room (.insert t (congrArg Pc.locks here) free)
  rw [view_goto]
  simp only [view, here, View.mk.injEq, eq_update_self_iff, comp_apply, true_and]
  and_intros <;> rfl

end moves

end Gbp.Concurrent
