import GraphBufferPool.Concurrent.Machine
import GraphBufferPool.Concurrent.Protocol

/-! # The protocol state of a machine state

The program counter of a thread says what it holds of the shared words. `view` reads the protocol
state off a machine state.
-/

namespace Gbp.Concurrent

open Function Protocol

/-- The mapping `FetchPageSync` keeps BUSY while `Victim` locks another one. -/
def Caller.locks : Caller → List (Page × MapWord)
  | .fetch _ => []
  | .victim r .. => [(r.page, .empty)]

/-- The frame `Victim` looks at and the page it read from the entry. -/
def Caller.candidate (page : Page) : Caller → Option (ℕ × Option Page)
  | .fetch _ => none
  | .victim _ toEvict _ => some (toEvict, some page)

def Caller.request : Caller → Request
  | .fetch r => r
  | .victim r .. => r

def MapWrite.request : MapWrite → Request
  | .restore caller .. => caller.request
  | .unlocked caller .. => caller.request
  | .deleted r .. => r
  | .created r _ => r

def MapWrite.locks : MapWrite → List (Page × MapWord)
  | .restore caller page m => (page, .frame m) :: caller.locks
  | .unlocked caller page value => (page, value) :: caller.locks
  | .deleted r _ victim => [(victim, .empty), (r.page, .empty)]
  | .created r m => [(r.page, .frame m)]

namespace Pc

/-- The mappings a thread made BUSY, with the words it will write. -/
def locks : Pc → List (Page × MapWord)
  | lockLoad caller _ | lockCas caller _ _ => caller.locks
  | pteLockLoad caller page m | pteLockCas caller page m _ => (page, .frame m) :: caller.locks
  | unLockTest caller page value => (page, value) :: caller.locks
  | pteUnLockLoad caller page m | pteUnLockCas caller page m _ => (page, .frame m) :: caller.locks
  | writeLoad write | writeCas write => write.locks
  | initing r | victimBegin r | sweep r .. | sweepSub r .. | victimRef r .. | victimLoad r ..
  | victimNext r .. | loadRead r _ | loadStore r _ => [(r.page, .empty)]
  | victimTest r _ _ victim value | victimUnLock r _ _ victim value =>
    [(victim, value), (r.page, .empty)]
  | evictDirty r _ victim | evictWrite r _ victim | evictDelete r _ victim =>
    [(victim, .empty), (r.page, .empty)]
  | insert r m => [(r.page, .frame m)]
  | _ => []

/-- The entry a thread locked. -/
def pteLock : Pc → Option ℕ
  | unLockTest _ _ (.frame m) => some m
  | pteUnLockLoad _ _ m | pteUnLockCas _ _ m _ => some m
  | victimTest _ _ _ _ (.frame m) | victimUnLock _ _ _ _ (.frame m) => some m
  | _ => none

/-- The frame a thread took, with the page it evicts. -/
def owned : Pc → Option (ℕ × Option Page)
  | evictDirty _ m victim | evictWrite _ m victim | evictDelete _ m victim => some (m, some victim)
  | writeLoad (.deleted _ m victim) | writeCas (.deleted _ m victim) => some (m, some victim)
  | loadRead _ m | loadStore _ m => some (m, none)
  | _ => none

/-- The counted reference of a thread, with the page when it is a pin. -/
def ref : Pc → Option (ℕ × Option Page)
  | undoRefCount _ m => some (m, none)
  | promote r m | insert r m => some (m, some r.page)
  | writeLoad (.created r m) | writeCas (.created r m) => some (m, some r.page)
  | setObject page m _ _ | decDirty page m _ | decRefCount page m | update page m _ _
  | updateDirty page m _ => some (m, some page)
  | _ => none

/-- The frame whose count a thread is about to increment. -/
def aim : Pc → Option ℕ
  | incRefCount _ m => some m
  | _ => none

/-- The frame `Victim` looks at, with the page once it was read. -/
def candidate : Pc → Option (ℕ × Option Page)
  | sweep _ toEvict _ | sweepSub _ toEvict _ | victimRef _ toEvict _ | victimLoad _ toEvict _
  | victimNext _ toEvict _ => some (toEvict, none)
  | lockLoad caller page | lockCas caller page _ | pteLockLoad caller page _
  | pteLockCas caller page _ _ | unLockTest caller page _ | pteUnLockLoad caller page _
  | pteUnLockCas caller page _ _ => caller.candidate page
  | writeLoad (.restore caller page _) | writeCas (.restore caller page _)
  | writeLoad (.unlocked caller page _) | writeCas (.unlocked caller page _) =>
    caller.candidate page
  | victimTest _ toEvict _ victim _ | victimUnLock _ toEvict _ victim _ =>
    some (toEvict, some victim)
  | _ => none

/-- The thread changed the frame and has not marked it dirty yet. -/
def wrote : Pc → Bool
  | setObject _ _ _ wrote | decDirty _ _ wrote | update _ _ _ wrote | updateDirty _ _ wrote => wrote
  | _ => false

/-- The bytes of the victim are on disk. -/
def saved : Pc → Bool
  | evictDelete .. | writeLoad (.deleted ..) | writeCas (.deleted ..) => true
  | _ => false

/-- The bytes of the requested page are in the frame. -/
def filled : Pc → Bool
  | loadStore .. => true
  | _ => false

/-- The call in progress, while it has not got its frame. -/
def request? : Pc → Option Request
  | findMapping r | incRefCount r _ | undoRefCount r _ | promote r _ | initing r | victimBegin r
  | sweep r .. | sweepSub r .. | victimRef r .. | victimLoad r .. | victimTest r ..
  | victimUnLock r .. | victimNext r .. | evictDirty r .. | evictWrite r .. | evictDelete r ..
  | loadRead r _ | loadStore r _ | insert r _ => some r
  | lockLoad caller _ | lockCas caller .. | pteLockLoad caller .. | pteLockCas caller ..
  | unLockTest caller .. | pteUnLockLoad caller .. | pteUnLockCas caller .. => some caller.request
  | writeLoad write | writeCas write => some write.request
  | _ => none

/-- All a thread holds of the shared words. -/
def roles (pc : Pc) :=
  (pc.locks, pc.pteLock, pc.owned, pc.ref, pc.aim, pc.candidate, pc.wrote, pc.saved, pc.filled)

/-- What the local variables of a thread satisfy: it asks for a page of the pool, `Begin` locks the
mapping of that page, and no exchange expects the BUSY value. -/
def Proper (cfg : PoolConfig) (pc : Pc) : Prop :=
  (∀ r ∈ pc.request?, cfg.Valid r.page) ∧
    match pc with
    | lockLoad (.fetch r) page => page = r.page
    | lockCas (.fetch r) page old => page = r.page ∧ old ≠ .busy
    | lockCas (.victim ..) _ old => old ≠ .busy
    | _ => True

end Pc

variable {T : Type} [DecidableEq T] (cfg : PoolConfig)

/-- The mappings of the pages of this pool. -/
def State.viewMap (s : State T) (page : Page) : MapWord :=
  if cfg.Valid page then s.mapping cfg page else .empty

/-- The bytes of a page on disk. -/
def State.viewDisk (s : State T) (page : Page) : Bytes :=
  fun i => (s.disk page.fd).byte (page.fpageId * pageSize + i)

/-- The protocol state of a machine state. -/
def view (s : State T) : View T where
  map := s.viewMap cfg
  pte := s.ptes
  free := s.freeList
  list := s.list.nodes
  hand := s.pointer
  latch := s.latch
  pins := s.pins
  memory := s.memory
  disk := s.viewDisk
  content := s.content
  locks := Pc.locks ∘ s.pc
  pteLock := Pc.pteLock ∘ s.pc
  owned := Pc.owned ∘ s.pc
  ref := Pc.ref ∘ s.pc
  aim := Pc.aim ∘ s.pc
  candidate := Pc.candidate ∘ s.pc
  wrote := Pc.wrote ∘ s.pc
  saved := Pc.saved ∘ s.pc
  filled := Pc.filled ∘ s.pc

/-- The pages and offsets of the pool. -/
def files : Files where
  Valid := cfg.Valid
  InFile := cfg.InFile

variable {cfg}

omit [DecidableEq T] in
theorem viewMap_of_valid {s : State T} {page : Page} (valid : cfg.Valid page) :
    s.viewMap cfg page = s.mapping cfg page := if_pos valid

omit [DecidableEq T] in
/-- A slot belongs to one page of the pool. -/
theorem viewMap_setMapping {s : State T} {page : Page} (valid : cfg.Valid page) (word : MapWord) :
    (s.setMapping cfg page word).viewMap cfg = update (s.viewMap cfg) page word := by
  funext other
  by_cases here : other = page
  · subst here
    simp [State.viewMap, State.mapping, State.setMapping, valid]
  · rw [update_of_ne here]
    unfold State.viewMap
    split_ifs with validOther
    · simp only [State.mapping, State.setMapping]
      by_cases sameFd : other.fd = page.fd
      · have differs : cfg.partitioner.getFPageIdInPartition other.fpageId ≠
            cfg.partitioner.getFPageIdInPartition page.fpageId := by
          intro slot
          have same := cfg.partitioner.slot_injective (validOther.2.2.trans valid.2.2.symm) slot
          exact here (by cases other; cases page; simp_all)
        rw [sameFd, update_self, update_of_ne differs]
      · rw [update_of_ne sameFd]
    · rfl

section view
variable (s : State T) (t : T)

theorem view_goto (pc : Pc) : view cfg (s.goto t pc) = { view cfg s with
    locks := update (view cfg s).locks t pc.locks
    pteLock := update (view cfg s).pteLock t pc.pteLock
    owned := update (view cfg s).owned t pc.owned
    ref := update (view cfg s).ref t pc.ref
    aim := update (view cfg s).aim t pc.aim
    candidate := update (view cfg s).candidate t pc.candidate
    wrote := update (view cfg s).wrote t pc.wrote
    saved := update (view cfg s).saved t pc.saved
    filled := update (view cfg s).filled t pc.filled } := by
  simp only [view, State.goto, comp_update]
  rfl

end view

omit [DecidableEq T] in
theorem setMapping_pc (s : State T) (page : Page) (word : MapWord) :
    (s.setMapping cfg page word).pc = s.pc := rfl

theorem goto_pc (s : State T) (t : T) (pc : Pc) : (s.goto t pc).pc t = pc :=
  update_self ..

theorem finish_goto (s : State T) (t : T) (pc : Pc) (r : Request) (m : ℕ) :
    (s.goto t pc).finish t r m = s.finish t r m := by
  unfold State.finish
  cases r.goal <;> simp only [State.goto, update_idem]

theorem goto_goto (s : State T) (t : T) (pc pc' : Pc) :
    (s.goto t pc).goto t pc' = s.goto t pc' := by
  simp only [State.goto, update_idem]

/-- What a thread holds is all the view sees of its program counter. -/
theorem view_goto_congr {s : State T} {t : T} {pc pc' : Pc} (same : pc.roles = pc'.roles) :
    view cfg (s.goto t pc) = view cfg (s.goto t pc') := by
  simp only [Pc.roles, Prod.mk.injEq] at same
  obtain ⟨locks, pteLock, owned, ref, aim, candidate, wrote, saved, filled⟩ := same
  rw [view_goto, view_goto, locks, pteLock, owned, ref, aim, candidate, wrote, saved, filled]

theorem view_goto_same {s : State T} {t : T} {pc : Pc} (same : pc.roles = (s.pc t).roles) :
    view cfg (s.goto t pc) = view cfg s := by
  rw [view_goto_congr same, State.goto, update_eq_self]

theorem roles_pinFailed (r : Request) : (pinFailed r).roles = Pc.idle.roles := by
  unfold pinFailed
  cases r.goal <;> rfl

end Gbp.Concurrent
