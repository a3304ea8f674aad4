import GraphBufferPool.Concurrent.Simulation

/-! # The invariant of the interleaving model

The safety of the protocol state, with the few facts about local variables, files and the list that
the moves rely on, holds in every reachable state.
-/

namespace Gbp.Concurrent

open Function Protocol

variable {T : Type} [DecidableEq T] {cfg : PoolConfig}
variable [Fintype T] {s s' : State T} {t : T}

/-- What the machine keeps besides the protocol: proper local variables, files of their recorded
size and a list within its capacity. -/
structure Sound (cfg : PoolConfig) (s : State T) : Prop where
  safe : Safe (files cfg) (view cfg s)
  proper : ∀ t, (s.pc t).Proper cfg
  exact : ∀ fd, (s.disk fd).length = cfg.fileSize fd
  linked : ∀ i ∈ s.list.nodes, i < s.list.capacity

/-- The handles of the files of the pool fit the bit-field. -/
def Handles (cfg : PoolConfig) : Prop := ∀ fd, 0 < cfg.fileSize fd → fd < 2 ^ 13

omit [DecidableEq T] [Fintype T] in
theorem Handles.fd_lt (handles : Handles cfg) {page : Page} (valid : cfg.Valid page) :
    page.fd < 2 ^ 13 :=
  handles page.fd (Nat.zero_lt_of_lt valid.1)

theorem moves_next (handles : Handles cfg) (sound : Sound cfg s) (room : (view cfg s).HasRoom)
    (moved : next cfg s t (s.pc t) = some s') :
    Moves (files cfg) (view cfg s) (view cfg s') := by
  have proper := sound.proper t
  generalize here : s.pc t = pc at moved
  cases pc with
  | idle => cases moved
  | findMapping r => exact moves_findMapping here ((here ▸ proper).1 r rfl) room moved
  | incRefCount r m => exact moves_incRefCount here room moved
  | undoRefCount r m => exact moves_undoRefCount here room moved
  | promote r m => exact moves_promote here room moved
  | lockLoad caller page =>
    cases moved
    exact moves_lockSeen sound.safe room (by rw [here])
  | lockCas caller page old => exact moves_lockCas here proper sound.safe room moved
  | pteLockLoad caller page m =>
    cases moved
    exact moves_pteLockSeen (by rw [here])
  | pteLockCas caller page m old => exact moves_pteLockCas here room moved
  | unLockTest caller page value => exact moves_unLockTest here moved
  | pteUnLockLoad caller page m =>
    simp only [next] at moved
    split_ifs at moved
    cases moved
    exact moves_goto (by rw [here]; rfl)
  | pteUnLockCas caller page m old => exact moves_pteUnLockCas here room moved
  | writeLoad write =>
    simp only [next] at moved
    split_ifs at moved
    cases moved
    exact moves_goto (by rw [here]; cases write <;> rfl)
  | writeCas write => exact moves_writeCas here sound.safe room moved
  | initing r => exact moves_initing here room moved
  | victimBegin r => exact moves_victimBegin here sound.safe room moved
  | sweep r toEvict count =>
    simp only [next] at moved
    split_ifs at moved <;> cases moved <;> exact moves_goto (by rw [here]; rfl)
  | sweepSub r toEvict count => exact moves_sweepSub here sound.safe room moved
  | victimRef r toEvict count =>
    simp only [next] at moved
    split_ifs at moved <;> cases moved <;> exact moves_goto (by rw [here]; rfl)
  | victimLoad r toEvict count => exact moves_victimLoad here room moved
  | victimTest r toEvict count victim value =>
    exact moves_victimTest here sound.safe room sound.linked moved
  | victimUnLock r toEvict count victim value => exact moves_victimUnLock here sound.safe moved
  | victimNext r toEvict count => exact moves_victimNext here sound.safe room moved
  | evictDirty r m victim => exact moves_evictDirty here room moved
  | evictWrite r m victim => exact moves_evictWrite here sound.safe room sound.exact moved
  | evictDelete r m victim => exact moves_evictDelete here sound.safe moved
  | loadRead r m => exact moves_loadRead here room moved
  | loadStore r m =>
    have valid := (here ▸ proper).1 r rfl
    exact moves_loadStore here room (handles.fd_lt valid) valid.2.1 moved
  | insert r m => exact moves_insert here room moved
  | setObject page m stores wrote => exact moves_setObject here room moved
  | decDirty page m wrote => exact moves_decDirty here room moved
  | decRefCount page m => exact moves_decRefCount here room moved
  | update page m stores wrote => exact moves_update here room moved
  | updateDirty page m wrote => exact moves_updateDirty here room moved

/-- A failed exchange only loads the word again. -/
theorem moves_spurious (sound : Sound cfg s) (room : (view cfg s).HasRoom)
    (moved : spurious cfg s t (s.pc t) = some s') :
    Moves (files cfg) (view cfg s) (view cfg s') := by
  generalize here : s.pc t = pc at moved
  cases pc with
  | lockCas caller page old =>
    cases moved
    exact moves_lockSeen sound.safe room (by rw [here]; rfl)
  | pteLockCas caller page m old =>
    cases moved
    exact moves_pteLockSeen (by rw [here]; rfl)
  | pteUnLockCas caller page m old =>
    simp only [spurious] at moved
    split_ifs at moved
    cases moved
    exact moves_goto (by rw [here]; rfl)
  | writeCas write =>
    simp only [spurious] at moved
    split_ifs at moved
    cases moved
    exact .refl
  | _ => cases moved

/-- A call that uses a pin takes it from the kept pins. -/
private theorem moves_usePin {page : Page} {m : ℕ} {pc : Pc} (here : s.pc t = .idle)
    (room : (view cfg s).HasRoom) (member : (page, m) ∈ s.pins)
    (pinned : pc.roles = (Pc.decRefCount page m).roles) :
    Moves (files cfg) (view cfg s)
      (view cfg ({ s with pins := s.pins.erase (page, m) }.goto t pc)) := by
  apply moves_one room (.usePin t member (congrArg Pc.ref here))
  rw [view_goto_congr pinned, view_goto]
  simp only [view, here, View.mk.injEq, eq_update_self_iff, comp_apply, true_and]
  and_intros <;> rfl

theorem moves_call {op : Op} (here : s.pc t = .idle) (room : (view cfg s).HasRoom)
    (moved : call cfg s t op = some s') : Moves (files cfg) (view cfg s) (view cfg s') := by
  cases op with
  | pin page =>
    simp only [call] at moved
    split_ifs at moved
    cases moved
    exact moves_goto (by rw [here]; rfl)
  | fetchPageSync page =>
    simp only [call] at moved
    split_ifs at moved
    cases moved
    exact moves_goto (by rw [here]; rfl)
  | setBlock page stores =>
    simp only [call] at moved
    split_ifs at moved
    cases moved
    exact moves_goto (by rw [here]; rfl)
  | decRefCount page m =>
    simp only [call] at moved
    split_ifs at moved with member
    cases moved
    exact moves_usePin here room member rfl
  | updateContent page m stores =>
    simp only [call] at moved
    split_ifs at moved with member
    cases moved
    exact moves_usePin here room member.1 rfl

/-- Every step of the machine is a sequence of protocol moves. -/
theorem moves_step {action : Action} (handles : Handles cfg) (sound : Sound cfg s)
    (room : (view cfg s).HasRoom) (moved : step cfg s t action = some s') :
    Moves (files cfg) (view cfg s) (view cfg s') := by
  cases action with
  | call op =>
    simp only [step] at moved
    split_ifs at moved with here
    exact moves_call here room moved
  | next => exact moves_next handles sound room moved
  | spurious => exact moves_spurious sound room moved

/-- The next program counter of a thread, with what the machine keeps besides the protocol. -/
def Kept (cfg : PoolConfig) (s s' : State T) (t : T) : Prop :=
  (∃ pc, s'.pc = update s.pc t pc ∧ pc.Proper cfg) ∧
    (∀ fd, (s'.disk fd).length = cfg.fileSize fd) ∧ ∀ i ∈ s'.list.nodes, i < s'.list.capacity

omit [DecidableEq T] [Fintype T] in
private theorem proper_lockFailed {caller : Caller} (valid : cfg.Valid caller.request.page) :
    (lockFailed caller).Proper cfg := by
  cases caller with
  | fetch r => exact ⟨by rintro _ ⟨⟩; exact valid, trivial⟩
  | victim r toEvict count => exact ⟨by rintro _ ⟨⟩; exact valid, trivial⟩

private theorem proper_lockSeen {caller : Caller} {page : Page} {word : MapWord}
    (proper : (Pc.lockLoad caller page).Proper cfg) : (lockSeen caller page word).Proper cfg := by
  have valid := proper.1 caller.request rfl
  unfold lockSeen
  split_ifs with busy
  · exact proper_lockFailed valid
  · cases caller with
    | fetch r => exact ⟨proper.1, proper.2, busy⟩
    | victim r toEvict count => exact ⟨proper.1, busy⟩

private theorem proper_lockDone {caller : Caller} {page : Page} {value : MapWord}
    (valid : cfg.Valid caller.request.page) : (lockDone caller page value).Proper cfg := by
  cases caller with
  | fetch r =>
    unfold lockDone
    simp only
    split_ifs <;> exact ⟨by rintro _ ⟨⟩; exact valid, trivial⟩
  | victim r toEvict count => exact ⟨by rintro _ ⟨⟩; exact valid, trivial⟩

private theorem proper_pteLockSeen {caller : Caller} {page : Page} {m : ℕ} {word : PTE}
    (valid : cfg.Valid caller.request.page) : (pteLockSeen caller page m word).Proper cfg := by
  unfold pteLockSeen
  split_ifs <;> exact ⟨by rintro _ ⟨⟩; exact valid, trivial⟩

private theorem proper_pinFailed {r : Request} (valid : cfg.Valid r.page) :
    (pinFailed r).Proper cfg := by
  unfold pinFailed
  cases r.goal with
  | pin => exact ⟨by rintro _ ⟨⟩, trivial⟩
  | fetch => exact ⟨by rintro _ ⟨⟩; exact valid, rfl⟩
  | setBlock stores => exact ⟨by rintro _ ⟨⟩; exact valid, rfl⟩

omit [Fintype T] in
private theorem kept_finish {s₁ : State T} {r : Request} {m : ℕ} (samePc : s₁.pc = s.pc)
    (exact : ∀ fd, (s₁.disk fd).length = cfg.fileSize fd)
    (linked : ∀ i ∈ s₁.list.nodes, i < s₁.list.capacity) : Kept cfg s (s₁.finish t r m) t := by
  unfold State.finish
  cases r.goal with
  | pin => exact ⟨⟨_, by rw [← samePc]; rfl, by rintro _ ⟨⟩, trivial⟩, exact, linked⟩
  | fetch => exact ⟨⟨_, by rw [← samePc]; rfl, by rintro _ ⟨⟩, trivial⟩, exact, linked⟩
  | setBlock stores => exact ⟨⟨_, by rw [← samePc]; rfl, by rintro _ ⟨⟩, trivial⟩, exact, linked⟩

omit [Fintype T] in
private theorem kept_sweepTo {u : State T} {r : Request} {toEvict count : ℕ}
    (samePc : u.pc = s.pc) (exact : ∀ fd, (u.disk fd).length = cfg.fileSize fd)
    (linked : ∀ i ∈ u.list.nodes, i < u.list.capacity) (valid : cfg.Valid r.page)
    (moved : u.sweepTo t r toEvict count = some s') : Kept cfg s s' t := by
  unfold State.sweepTo at moved
  split at moved
  · cases moved
    exact ⟨⟨_, by rw [← samePc]; rfl, by rintro _ ⟨⟩; exact valid, trivial⟩, exact, linked⟩
  · cases moved

theorem kept_next (sound : Sound cfg s) (moved : next cfg s t (s.pc t) = some s') :
    Kept cfg s s' t := by
  have proper := sound.proper t
  have exact := sound.exact
  have linked := sound.linked
  generalize here : s.pc t = pc at moved proper
  cases pc with
  | idle => cases moved
  | findMapping r =>
    simp only [next] at moved
    split at moved <;> cases moved
    · exact ⟨⟨_, rfl, proper.1, trivial⟩, exact, linked⟩
    · exact ⟨⟨_, rfl, proper_pinFailed (proper.1 r rfl)⟩, exact, linked⟩
  | incRefCount r m =>
    cases moved
    refine ⟨⟨_, rfl, ?_⟩, exact, linked⟩
    split_ifs
    · exact proper_pinFailed (proper.1 r rfl)
    · exact ⟨proper.1, trivial⟩
    · exact ⟨proper.1, trivial⟩
  | undoRefCount r m =>
    cases moved
    exact ⟨⟨_, rfl, proper_pinFailed (proper.1 r rfl)⟩, exact, linked⟩
  | promote r m =>
    cases moved
    exact kept_finish rfl exact linked
  | lockLoad caller page =>
    cases moved
    exact ⟨⟨_, rfl, proper_lockSeen proper⟩, exact, linked⟩
  | lockCas caller page old =>
    have released : (Pc.lockLoad caller page).Proper cfg := by
      cases caller with
      | fetch r => exact ⟨proper.1, proper.2.1⟩
      | victim r toEvict count => exact ⟨proper.1, trivial⟩
    simp only [next] at moved
    split_ifs at moved <;> cases moved
    · refine ⟨⟨_, rfl, ?_⟩, exact, linked⟩
      cases old with
      | frame m => exact ⟨proper.1, trivial⟩
      | empty => exact proper_lockDone (proper.1 _ rfl)
      | busy => exact proper_lockDone (proper.1 _ rfl)
    · exact ⟨⟨_, rfl, proper_lockSeen released⟩, exact, linked⟩
  | pteLockLoad caller page m =>
    cases moved
    exact ⟨⟨_, rfl, proper_pteLockSeen (proper.1 _ rfl)⟩, exact, linked⟩
  | pteLockCas caller page m old =>
    simp only [next] at moved
    split_ifs at moved
    · obtain ⟨new, _, rfl⟩ := Option.map_eq_some_iff.mp moved
      exact ⟨⟨_, rfl, proper_lockDone (proper.1 _ rfl)⟩, exact, linked⟩
    · cases moved
      exact ⟨⟨_, rfl, proper_pteLockSeen (proper.1 _ rfl)⟩, exact, linked⟩
  | unLockTest caller page value =>
    simp only [next] at moved
    cases value with
    | frame m =>
      simp only at moved
      split_ifs at moved
      cases moved
      exact ⟨⟨_, rfl, proper.1, trivial⟩, exact, linked⟩
    | empty =>
      cases moved
      exact ⟨⟨_, rfl, proper.1, trivial⟩, exact, linked⟩
    | busy =>
      cases moved
      exact ⟨⟨_, rfl, proper.1, trivial⟩, exact, linked⟩
  | pteUnLockLoad caller page m =>
    simp only [next] at moved
    split_ifs at moved
    cases moved
    exact ⟨⟨_, rfl, proper.1, trivial⟩, exact, linked⟩
  | pteUnLockCas caller page m old =>
    simp only [next] at moved
    split_ifs at moved
    · obtain ⟨new, _, rfl⟩ := Option.map_eq_some_iff.mp moved
      exact ⟨⟨_, rfl, proper.1, trivial⟩, exact, linked⟩
    · cases moved
      exact ⟨⟨_, rfl, proper.1, trivial⟩, exact, linked⟩
  | writeLoad write =>
    simp only [next] at moved
    split_ifs at moved
    cases moved
    exact ⟨⟨_, rfl, proper.1, trivial⟩, exact, linked⟩
  | writeCas write =>
    simp only [next] at moved
    split_ifs at moved
    cases moved
    cases write with
    | restore caller page m =>
      exact ⟨⟨_, rfl, proper_lockFailed (proper.1 _ rfl)⟩, exact, linked⟩
    | unlocked caller page value =>
      cases caller with
      | fetch r => exact ⟨⟨_, rfl, proper.1, trivial⟩, exact, linked⟩
      | victim r toEvict count => exact ⟨⟨_, rfl, proper.1, trivial⟩, exact, linked⟩
    | deleted r m victim => exact ⟨⟨_, rfl, proper.1, trivial⟩, exact, linked⟩
    | created r m => exact kept_finish rfl exact linked
  | initing r =>
    simp only [next] at moved
    split at moved <;> cases moved <;> exact ⟨⟨_, rfl, proper.1, trivial⟩, exact, linked⟩
  | victimBegin r =>
    simp only [next] at moved
    split_ifs at moved
    · split at moved <;> cases moved
    · split at moved <;> cases moved
      exact ⟨⟨_, rfl, proper.1, trivial⟩, exact, linked⟩
  | sweep r toEvict count =>
    simp only [next] at moved
    split_ifs at moved <;> cases moved <;> exact ⟨⟨_, rfl, proper.1, trivial⟩, exact, linked⟩
  | sweepSub r toEvict count =>
    exact kept_sweepTo (s := s)
      (u := { s with list := s.list.setValue toEvict (s.list.val toEvict - 1) }) rfl exact linked
      (proper.1 _ rfl) moved
  | victimRef r toEvict count =>
    simp only [next] at moved
    split_ifs at moved <;> cases moved <;> exact ⟨⟨_, rfl, proper.1, trivial⟩, exact, linked⟩
  | victimLoad r toEvict count =>
    cases moved
    exact ⟨⟨_, rfl, proper.1, trivial⟩, exact, linked⟩
  | victimTest r toEvict count victim value =>
    simp only [next] at moved
    split_ifs at moved <;> cases moved
    · refine ⟨⟨_, rfl, proper.1, trivial⟩, exact, ?_⟩
      simp only [State.goto, ListArray.removeFromIndex]
      split_ifs
      · exact linked
      · exact fun i member => linked i (List.mem_of_mem_erase member)
    · exact ⟨⟨_, rfl, proper.1, trivial⟩, exact, linked⟩
  | victimUnLock r toEvict count victim value =>
    cases moved
    exact ⟨⟨_, rfl, proper.1, trivial⟩, exact, linked⟩
  | victimNext r toEvict count =>
    simp only [next] at moved
    split_ifs at moved
    exact kept_sweepTo rfl exact linked (proper.1 _ rfl) moved
  | evictDirty r m victim =>
    cases moved
    refine ⟨⟨_, rfl, ?_⟩, exact, linked⟩
    split_ifs <;> exact ⟨proper.1, trivial⟩
  | evictWrite r m victim =>
    cases moved
    have owner : (s.pc t).owned = some (m, some victim) := by rw [here]; rfl
    obtain ⟨described, valid⟩ := evicting_page sound.safe owner
    refine ⟨⟨_, rfl, proper.1, trivial⟩, fun fd => ?_, linked⟩
    simp only [State.goto, State.writeBack, described]
    by_cases same : fd = victim.fd
    · subst same
      have bound : victim.fpageId * pageSize + pageSize ≤ 2 ^ 64 := by
        have := valid.2.1
        simp only [pageSize, fpageIdRange] at *
        omega
      rw [update_self]
      exact (RWSysCall.write_length_iff (exact _) (cfg.fileSize_lt _) bound (by decide) _).mpr valid.1.le
    · rw [update_of_ne same, exact]
  | evictDelete r m victim =>
    cases moved
    exact ⟨⟨_, rfl, proper.1, trivial⟩, exact, linked⟩
  | loadRead r m =>
    cases moved
    exact ⟨⟨_, rfl, proper.1, trivial⟩, exact, linked⟩
  | loadStore r m =>
    cases moved
    exact ⟨⟨_, rfl, proper.1, trivial⟩, exact, linked⟩
  | insert r m =>
    simp only [next, ListArray.moveToFront] at moved
    split_ifs at moved with latched past
    cases moved
    refine ⟨⟨_, rfl, proper.1, trivial⟩, exact, fun i member => ?_⟩
    rcases List.mem_cons.mp member with rfl | member
    · exact Nat.lt_of_not_le past
    · exact linked i (List.mem_of_mem_erase member)
  | setObject page m stores wrote =>
    cases stores <;> cases moved <;>
      exact ⟨⟨_, rfl, by rintro _ ⟨⟩, trivial⟩, exact, linked⟩
  | decDirty page m wrote =>
    cases moved
    exact ⟨⟨_, rfl, by rintro _ ⟨⟩, trivial⟩, exact, linked⟩
  | decRefCount page m =>
    cases moved
    exact ⟨⟨_, rfl, by rintro _ ⟨⟩, trivial⟩, exact, linked⟩
  | update page m stores wrote =>
    cases stores <;> cases moved <;>
      exact ⟨⟨_, rfl, by rintro _ ⟨⟩, trivial⟩, exact, linked⟩
  | updateDirty page m wrote =>
    cases moved
    exact ⟨⟨_, rfl, by rintro _ ⟨⟩, trivial⟩, exact, linked⟩

theorem kept_spurious (sound : Sound cfg s) (moved : spurious cfg s t (s.pc t) = some s') :
    Kept cfg s s' t := by
  have proper := sound.proper t
  have exact := sound.exact
  have linked := sound.linked
  generalize here : s.pc t = pc at moved proper
  cases pc with
  | lockCas caller page old =>
    have released : (Pc.lockLoad caller page).Proper cfg := by
      cases caller with
      | fetch r => exact ⟨proper.1, proper.2.1⟩
      | victim r toEvict count => exact ⟨proper.1, trivial⟩
    cases moved
    exact ⟨⟨_, rfl, proper_lockSeen released⟩, exact, linked⟩
  | pteLockCas caller page m old =>
    cases moved
    exact ⟨⟨_, rfl, proper_pteLockSeen (proper.1 _ rfl)⟩, exact, linked⟩
  | pteUnLockCas caller page m old =>
    simp only [spurious] at moved
    split_ifs at moved
    cases moved
    exact ⟨⟨_, rfl, proper.1, trivial⟩, exact, linked⟩
  | writeCas write =>
    simp only [spurious] at moved
    split_ifs at moved
    cases moved
    exact ⟨⟨_, (update_eq_self t s.pc).symm, by rw [here]; exact proper⟩, exact, linked⟩
  | _ => cases moved

theorem kept_call (sound : Sound cfg s) {op : Op} (moved : call cfg s t op = some s') :
    Kept cfg s s' t := by
  have exact := sound.exact
  have linked := sound.linked
  cases op with
  | pin page =>
    simp only [call] at moved
    split_ifs at moved with valid
    cases moved
    exact ⟨⟨_, rfl, by rintro _ ⟨⟩; exact valid, trivial⟩, exact, linked⟩
  | fetchPageSync page =>
    simp only [call] at moved
    split_ifs at moved with valid
    cases moved
    exact ⟨⟨_, rfl, by rintro _ ⟨⟩; exact valid, trivial⟩, exact, linked⟩
  | setBlock page stores =>
    simp only [call] at moved
    split_ifs at moved with valid
    cases moved
    exact ⟨⟨_, rfl, by rintro _ ⟨⟩; exact valid.1, trivial⟩, exact, linked⟩
  | decRefCount page m =>
    simp only [call] at moved
    split_ifs at moved
    cases moved
    exact ⟨⟨_, rfl, by rintro _ ⟨⟩, trivial⟩, exact, linked⟩
  | updateContent page m stores =>
    simp only [call] at moved
    split_ifs at moved
    cases moved
    exact ⟨⟨_, rfl, by rintro _ ⟨⟩, trivial⟩, exact, linked⟩

theorem kept_step {action : Action} (sound : Sound cfg s)
    (moved : step cfg s t action = some s') : Kept cfg s s' t := by
  cases action with
  | call op =>
    simp only [step] at moved
    split_ifs at moved
    exact kept_call sound moved
  | next => exact kept_next sound moved
  | spurious => exact kept_spurious sound moved

/-- Each step of each thread preserves the invariant. -/
theorem Sound.step {action : Action} (sound : Sound cfg s) (handles : Handles cfg)
    (room : (view cfg s).HasRoom) (moved : Concurrent.step cfg s t action = some s') :
    Sound cfg s' := by
  obtain ⟨⟨pc, samePc, proper⟩, exact, linked⟩ := kept_step sound moved
  refine ⟨sound.safe.moves (moves_step handles sound room moved), fun t' => ?_, exact, linked⟩
  rw [samePc]
  by_cases mine : t' = t
  · subst mine
    rw [update_self]
    exact proper
  · rw [update_of_ne mine]
    exact sound.proper t'

omit [DecidableEq T] in
theorem State.Bounded.hasRoom (bounded : s.Bounded) : (view cfg s).HasRoom := by
  intro m
  have := bounded m
  simp only [State.outstanding] at this
  simp only [view]
  omega

/-- The places of the frames of a fresh pool. -/
private def freshPlace (cfg : PoolConfig) (m : ℕ) : Place T :=
  if m < cfg.poolSize then .free else .absent

omit [DecidableEq T] [Fintype T] in
private theorem freshPlace_page? (m : ℕ) : (freshPlace (T := T) cfg m).page? = none := by
  unfold freshPlace
  split_ifs <;> rfl

omit [DecidableEq T] in
private theorem count_none {α : Type} {value : T → Option α} (none : ∀ t, value t = none)
    (keep : Option α → Prop) [DecidablePred keep] (fails : ¬ keep Option.none) :
    Counting.count keep value = 0 := by
  by_contra positive
  obtain ⟨t, holds⟩ := Counting.exists_of_count_pos keep value (Nat.pos_of_ne_zero positive)
  rw [none t] at holds
  exact fails holds

omit [DecidableEq T] in
/-- A fresh pool satisfies the protocol invariant. -/
theorem Initial.inv (initial : Initial cfg s) : Inv (files cfg) (view cfg s) (freshPlace cfg) := by
  have idle (t : T) : s.pc t = .idle := initial.pc t
  have empty (page : Page) : s.viewMap cfg page = .empty := by
    unfold State.viewMap
    rw [initial.mappings, ite_self]
  have noLocks (t : T) : (view cfg s).locks t = [] := congrArg Pc.locks (idle t)
  have noPte (t : T) : (view cfg s).pteLock t = none := congrArg Pc.pteLock (idle t)
  have noOwned (t : T) : (view cfg s).owned t = none := congrArg Pc.owned (idle t)
  have noRef (t : T) : (view cfg s).ref t = none := congrArg Pc.ref (idle t)
  have noAim (t : T) : (view cfg s).aim t = none := congrArg Pc.aim (idle t)
  have noCandidate (t : T) : (view cfg s).candidate t = none := congrArg Pc.candidate (idle t)
  have noPins : (view cfg s).pins = [] := initial.pins
  have noList : (view cfg s).list = [] := initial.list.2
  have noHolders (m : ℕ) : holders (view cfg s).pins (view cfg s).ref m = 0 := by
    rw [holders, noPins, count_none noRef _ (by simp)]
    rfl
  have noAims (m : ℕ) : aims (view cfg s).aim m = 0 := by
    rw [aims, count_none noAim _ (by simp)]
  have free (m : ℕ) : ((view cfg s).pte m).busy = false := by
    change (s.ptes m).busy = false
    rw [initial.ptes]
    rfl
  have nowhere (m : ℕ) {c : Place T} (other : c ≠ .free) (present : c ≠ .absent) :
      freshPlace cfg m ≠ c := by
    unfold freshPlace
    split_ifs
    · exact other.symm
    · exact present.symm
  constructor
  · intro m
    change m ∈ s.freeList ↔ _
    rw [initial.freeList, List.mem_range, freshPlace]
    split_ifs with inside <;> simp [inside]
  · change s.freeList.Nodup
    rw [initial.freeList]
    exact List.nodup_range
  · intro page m
    change s.viewMap cfg page = _ ↔ _
    rw [empty]
    exact iff_of_false (by simp) (nowhere m (by simp) (by simp))
  · intro t page m
    rw [noLocks]
    exact iff_of_false (by simp) (nowhere m (by simp) (by simp))
  · intro t m
    rw [noOwned]
    exact iff_of_false (by simp) (nowhere m (by simp) (by simp))
  · constructor
    · intro page
      change s.viewMap cfg page = _ ↔ _
      rw [empty]
      simp [noLocks]
    · intro t t' page word word' member
      simp [noLocks] at member
    · intro t
      simp [noLocks]
    · intro t page
      simp [noLocks]
  · intro page present
    exact absurd (empty page) present
  · rw [noList]
    exact List.nodup_nil
  · simp [noList]
  · intro i hand
    change s.pointer = _ at hand
    rw [initial.pointer] at hand
    cases hand
  · change s.pointer ≠ _
    rw [initial.pointer]
    simp
  · intro t m page? chosen
    rw [noCandidate] at chosen
    cases chosen
  · intro m page resident
    rw [freshPlace_page?] at resident
    cases resident
  · intro m page resident
    rw [freshPlace_page?] at resident
    cases resident
  · exact fun m _ => noHolders m
  · exact fun m _ _ => noAims m
  · exact fun m _ _ => free m
  · exact fun m t page locked => absurd locked (nowhere m (by simp) (by simp))
  · intro t m held
    rw [noPte] at held
    cases held
  · intro m busy
    rw [free] at busy
    cases busy
  · intro page m member
    rw [noPins] at member
    cases member
  · intro t m page held
    rw [noRef] at held
    cases held
  · intro t m page owner
    rw [noOwned] at owner
    cases owner

omit [DecidableEq T] [Fintype T] in
theorem Initial.coherent (initial : Initial cfg s) :
    Coherent (files cfg) (view cfg s) (freshPlace cfg) where
  resident := by
    intro m page resident
    rw [freshPlace_page?] at resident
    cases resident
  modified := by
    intro m page resident
    rw [freshPlace_page?] at resident
    cases resident
  onDisk := fun page _ _ i _ => (initial.content page i).symm
  evicting := by
    intro t m page owner
    change (s.pc t).owned = _ at owner
    rw [initial.pc] at owner
    cases owner
  filled := by
    intro t filled
    change (s.pc t).filled = _ at filled
    rw [initial.pc] at filled
    cases filled
  wroteRef := by
    intro t wrote
    change (s.pc t).wrote = _ at wrote
    rw [initial.pc] at wrote
    cases wrote

omit [DecidableEq T] in
theorem Initial.sound (initial : Initial cfg s) : Sound cfg s where
  safe := ⟨freshPlace cfg, initial.inv, initial.coherent⟩
  proper := by
    intro t
    rw [initial.pc]
    exact ⟨by rintro _ ⟨⟩, trivial⟩
  exact := initial.disk
  linked := by simp [initial.list.2]

/-- The invariant holds in every state of every interleaving. -/
theorem Reachable.sound (reachable : Reachable cfg s) (handles : Handles cfg) : Sound cfg s :=
  reachable.invariant (fun _ => Initial.sound) fun _ _ sound ⟨bounded, _, _, moved⟩ =>
    sound.step handles bounded.hasRoom moved

end Gbp.Concurrent
