import GraphBufferPool.Pool.FetchSync

/-! # The resumable fetch

One call of `FetchPageSync2` takes a request from one phase to another: it pins a resident page, takes
a frame for an unmapped one, starts the read of a taken frame, or publishes it. The pool keeps its
invariant between the calls, with the frame of a started request in place `loading`.
-/

namespace Gbp

/-- The pin of a request for `page` that has ended. -/
def Phase.pinned (page : Page) : Phase → List (Page × ℕ)
  | .finish m => [(page, m)]
  | _ => []

namespace BufferPool

open Function LawfulReplacer

variable {R : Type} [Replacer R] {io : AsyncRead} {pool pool' : BufferPool R} {page : Page}
  {phase phase' : Phase} {m fuel : ℕ} {done : Bool}

/-- From state `Initing` the call takes a frame and leaves. -/
theorem fetchPageSync2_initing (ran : fetchPageSync2 io page fuel .initing pool = .ok (done, phase', pool')) :
    ∃ m, done = false ∧ phase' = .loading m ∧ pool.takeFrame = .ok (m, pool') := by
  cases fuel with
  | zero => cases ran
  | succ fuel =>
    obtain ⟨⟨phase, middle⟩, chosen, ran⟩ := bind_eq_ok.mp ran
    rcases initingPhase_shape chosen with ⟨m, rfl⟩ | ⟨m, rfl⟩
    · cases ran
      exact ⟨m, rfl, rfl, by rw [takeFrame, chosen]; rfl⟩
    · cases fuel with
      | zero => cases ran
      | succ fuel =>
        obtain ⟨evicted, done, ran⟩ := bind_eq_ok.mp ran
        cases ran
        refine ⟨m, rfl, rfl, ?_⟩
        simp only [takeFrame, chosen, ok_bind, done]
        rfl

omit [Replacer R] in
theorem awaitRead_ok (valid : pool.disk.validFD page.fd = true) : ∃ entry,
    pool.disk.files[page.fd]? = some entry ∧ pool.awaitRead io page m = .ok (pool.withBytes m
      (io entry.file (page.fpageId * pageSize) (pool.memory m))) := by
  unfold DiskManager.validFD at valid
  unfold awaitRead
  cases here : pool.disk.files[page.fd]? with
  | none => simp [here] at valid
  | some entry =>
    have opened : entry.valid = true := by simpa [here] using valid
    exact ⟨entry, rfl, by simp [opened, withBytes]⟩

variable [LawfulReplacer R] {place place' : ℕ → Place} {pins : List (Page × ℕ)}

/-- A request in this phase has taken its frame, or has not started. -/
def Awaits (place : ℕ → Place) (page : Page) : Phase → Prop
  | .begin | .finish _ => True
  | .loading m | .loadingFinish m => place m = .loading page
  | _ => False

/-- What one call of `FetchPageSync2` for `page` does. -/
inductive Polled (io : AsyncRead) (pool : BufferPool R) (place : ℕ → Place) (page : Page) :
    Phase → Bool → Phase → BufferPool R → (ℕ → Place) → Prop
  | wait (locked : ∃ m, (place m).Locks page) : Polled io pool place page .begin false .begin pool place
  | hit {m : ℕ} (here : place m = .resident page) (r : R) (same : SameFrames pool.replacer r) (done : Bool) :
      Polled io pool place page .begin done (.finish m) (pool.withPin m r) place
  | take {m : ℕ} {pool' : BufferPool R} (empty : pool.pageTable.word? page = some .empty)
      (taken : Taken pool place page m pool') :
      Polled io pool place page .begin false (.loading m) pool' (update place m (.loading page))
  | read {m : ℕ} (here : place m = .loading page) :
      Polled io pool place page (.loading m) false (.loadingFinish m) pool place
  | publish {m : ℕ} {entry : FileEntry} {pool' : BufferPool R} (here : place m = .loading page)
      (opened : pool.disk.files[page.fd]? = some entry)
      (published : Published (pool.withBytes m (io entry.file (page.fpageId * pageSize) (pool.memory m)))
        page m pool') :
      Polled io pool place page (.loadingFinish m) true (.finish m) pool' (update place m (.resident page))
  | finish {m : ℕ} : Polled io pool place page (.finish m) true (.finish m) pool place

/-- A call that returns. -/
theorem Inv.fetchPageSync2_sound (inv : Inv pool place (phase.pinned page ++ pins)) (able : Able pool place)
    (owns : pool.Owns page) (room : ∀ m, Room pins m) (awaits : Awaits place page phase)
    (ran : fetchPageSync2 io page fuel phase pool = .ok (done, phase', pool')) :
    ∃ place', Polled io pool place page phase done phase' pool' place' ∧
      Inv pool' place' (phase'.pinned page ++ pins) ∧ Awaits place' page phase' := by
  cases fuel with
  | zero => cases ran
  | succ fuel =>
    cases phase with
    | begin =>
      change Inv pool place pins at inv
      obtain ⟨⟨locked, phase, middle⟩, began, ran⟩ := bind_eq_ok.mp ran
      rcases inv.word?_cases owns with ⟨k, here⟩ | locks | empty
      · obtain ⟨r, same, _, locked', began'⟩ := inv.exists_pin here
        cases began.symm.trans began'
        have inv' := inv.addPin here (room k) same.capacity same.frames same.calm
        cases locked with
        | false =>
          cases ran
          exact ⟨place, .hit here r same _, inv', trivial⟩
        | true =>
          cases fuel with
          | zero => cases ran
          | succ fuel =>
            cases ran
            exact ⟨place, .hit here r same _, inv', trivial⟩
      · cases began.symm.trans (beginPhase_busy ((inv.locked page owns).mpr locks))
        cases ran
        exact ⟨place, .wait locks, inv, trivial⟩
      · cases began.symm.trans (beginPhase_empty empty)
        obtain ⟨m, rfl, rfl, took⟩ := fetchPageSync2_initing ran
        have taken := inv.takeFrame_sound able owns empty took
        exact ⟨_, .take empty taken, taken.inv inv owns empty, update_self ..⟩
    | loading m =>
      cases ran
      exact ⟨place, .read awaits, inv, awaits⟩
    | loadingFinish m =>
      obtain ⟨entry, opened, read⟩ := @awaitRead_ok _ io pool page m owns.valid
      obtain ⟨pool'', published, result, inv'⟩ :=
        (inv.withBytes m (io entry.file (page.fpageId * pageSize) (pool.memory m))).exists_publish awaits
      simp only [fetchPageSync2, read, ok_bind, published] at ran
      cases ran
      exact ⟨_, .publish awaits opened result, inv', trivial⟩
    | finish m =>
      cases ran
      exact ⟨place, .finish, inv, trivial⟩
    | reBegin | initing | evicting => exact absurd awaits id

end BufferPool

end Gbp
