import GraphBufferPool.Manager.Sessions
import GraphBufferPool.Pool.Flush

/-! # The flush of a file

`FlushFile` calls `FlushPage` for every page of the file and returns the last result. It reports a failure
of another page only where the last page fails too.
-/

namespace Gbp.BufferPoolManager

open Function LawfulReplacer BufferPool DiskManager Fuel Machine

variable {R : Type} [Replacer R]

/-- The number of pages `FlushFile` visits. -/
def fpageNum (mgr : BufferPoolManager R) (fd : ℕ) : ℕ := ceil (mgr.disk.getFileSizeFast fd) pageSize

/-- The calls of `FlushPage` for the first `n` pages of a file, with their results. -/
def flushPages (mgr : BufferPoolManager R) (fd : ℕ) (deleteFromMemory : Bool) (n : ℕ) :
    Except Stop (List Bool × BufferPoolManager R) :=
  (List.range n).foldlM (fun state fpageId => do
    let (flushed, mgr) ← state.2.flushPage fpageId fd deleteFromMemory
    return (state.1 ++ [flushed], mgr)) ([], mgr)

/-- No one holds the page and it is not locked. -/
def Idle (mgr : BufferPoolManager R) (page : Page) : Prop := (mgr.pool (mgr.poolOf page)).Idle page

/-- `FlushFile` returns true exactly where every `FlushPage` did, and then the disk has the bytes of every
page that was resident. -/
def ReportsFlush (mgr : BufferPoolManager R) (fd : ℕ) (deleteFromMemory : Bool) : Prop :=
  ∃ results result mgr', mgr.flushPages fd deleteFromMemory (mgr.fpageNum fd) = .ok (results, mgr') ∧
    mgr.flushFile fd deleteFromMemory = .ok (result, mgr') ∧ (result = true ↔ ∀ flushed ∈ results, flushed = true) ∧
    (result = true → ∀ page : Page, page.fd = fd → page.fpageId < mgr.fpageNum fd → ∀ m,
      (mgr.pool (mgr.poolOf page)).pageTable.word? page = some (.frame m) → ∀ i < pageSize,
        mgr'.disk.byte fd (page.position i) = mgr'.frame page m i)

/-- A program that flushes pages too, some of which then stay locked. -/
inductive SavingStep : Session R → Session R → Prop
  | session {s s' : Session R} (step : SessionStep s s') : SavingStep s s'
  | flushPage {s : Session R} {page : Page} {deleteFromMemory result : Bool} {mgr' : BufferPoolManager R}
      (inFile : InFile s.mgr page)
      (ran : s.mgr.flushPage page.fpageId page.fd deleteFromMemory = .ok (result, mgr')) :
      SavingStep s ⟨mgr', s.content, s.pins⟩

/-- The states in which such a program flushes a file. -/
abbrev SavingRun (s : Session R) : Prop := Reach SessionStart SavingStep s

omit [Replacer R] in
theorem flushPages_succ (mgr : BufferPoolManager R) (fd : ℕ) (deleteFromMemory : Bool) (n : ℕ) :
    mgr.flushPages fd deleteFromMemory (n + 1) = (do
      let (results, mgr) ← mgr.flushPages fd deleteFromMemory n
      let (flushed, mgr) ← mgr.flushPage n fd deleteFromMemory
      return (results ++ [flushed], mgr)) := by
  rw [flushPages, List.range_succ, List.foldlM_append]
  change (mgr.flushPages fd deleteFromMemory n >>= _) = _
  cases mgr.flushPages fd deleteFromMemory n with
  | error stop => rfl
  | ok state => simp only [ok_bind, List.foldlM_cons, List.foldlM_nil, bind_pure]

omit [Replacer R] in
/-- `FlushFile` returns the last of the results. -/
theorem flushFile_eq {mgr : BufferPoolManager R} {fd : ℕ} (valid : mgr.disk.validFD fd = true)
    (deleteFromMemory : Bool) : mgr.flushFile fd deleteFromMemory =
      (mgr.flushPages fd deleteFromMemory (mgr.fpageNum fd)).map fun state => (state.1.getLastD true, state.2) := by
  rw [flushFile, if_pos valid, fpageNum]
  generalize ceil (mgr.disk.getFileSizeFast fd) pageSize = n
  induction n with
  | zero => rfl
  | succ n ih =>
    rw [flushPages_succ, List.range_succ, List.foldlM_append, ih]
    cases mgr.flushPages fd deleteFromMemory n with
    | error stop => rfl
    | ok state =>
      simp only [Except.map, ok_bind, List.foldlM_cons, List.foldlM_nil, bind_pure]
      cases state.2.flushPage n fd deleteFromMemory with
      | error stop => rfl
      | ok flushed =>
        obtain ⟨result, mgr'⟩ := flushed
        change Except.ok (result, mgr') = Except.ok ((state.1 ++ [result]).getLastD true, mgr')
        rw [List.getLastD_concat]

variable [LawfulReplacer R]

variable {mgr mgr' : BufferPoolManager R} {K : ℕ → ℕ → Prop} {content : Content} {place : ℕ → ℕ → Place}
  {pins : ℕ → List (Page × ℕ)} {page : Page}

/-- What `FlushPage` does to the manager. -/
structure PageFlush (K : ℕ → ℕ → Prop) (content : Content) (mgr : BufferPoolManager R) (pins : ℕ → List (Page × ℕ))
    (page : Page) (result : Bool) (mgr' : BufferPoolManager R) : Prop where
  result_iff : result = true ↔ mgr.Idle page
  sound : ∃ place', Sound K content mgr' place' pins
  shape : SameShape mgr mgr'
  frame : ∀ other m, mgr'.frame other m = mgr.frame other m
  idle : ∀ other, InFile mgr other → other ≠ page → (mgr'.Idle other ↔ mgr.Idle other)
  saved : result = true → mgr'.disk.Synced K content page
  others : ∀ other, mgr.disk.Synced K content other → mgr'.disk.Synced K content other

/-- `FlushPage` of a page of a file returns. -/
theorem Sound.flushPage (sound : Sound K content mgr place pins) (inFile : InFile mgr page) (deleteFromMemory : Bool) :
    ∃ result mgr', mgr.flushPage page.fpageId page.fd deleteFromMemory = .ok (result, mgr') ∧
      PageFlush K content mgr pins page result mgr' := by
  have inside := mgr.poolOf_lt page
  have narrow : page.fpageId % fpageIdRange = page.fpageId := Nat.mod_eq_of_lt inFile.fpageId_lt
  obtain ⟨result, pool', place', ran, flushed, _⟩ :=
    (sound.inv _ inside).flushPage_cases (sound.owns inFile) deleteFromMemory
  obtain ⟨coherent, saved, others⟩ := flushed.coherent K content (sound.coherent _ inside)
  have sound' := sound.setPool inside flushed.files flushed.handles flushed.inv
    (flushed.settled (sound.settled _ inside)) coherent fun j bound _ =>
      (sound.coherent j bound).withDisk flushed.handles others
  rw [update_eq_self] at sound'
  have shape : SameShape mgr (mgr.setPool (mgr.poolOf page) pool') := sameShape_setPool flushed.handles
  refine ⟨result, mgr.setPool (mgr.poolOf page) pool', ?_, flushed.result_iff, ⟨_, sound'⟩, shape,
    fun other m => ?_, fun other known apart => ?_, saved, others⟩
  · rw [BufferPoolManager.flushPage, narrow]
    simp only [ran, ok_bind]
    rfl
  · rw [BufferPoolManager.frame, BufferPoolManager.frame, shape.poolOf]
    by_cases same : mgr.poolOf other = mgr.poolOf page
    · rw [same]
      simp only [BufferPoolManager.setPool, update_self, flushed.memory]
      rfl
    · simp only [BufferPoolManager.setPool, update_of_ne same]
  · rw [Idle, Idle, shape.poolOf]
    by_cases same : mgr.poolOf other = mgr.poolOf page
    · rw [same, setPool_pool_self]
      exact flushed.idle other (same ▸ sound.owns known) apart
    · rw [setPool_pool_of_ne _ same]
      rfl

/-- What the flushes of the first `n` pages of a file have done. -/
structure FileFlush (content : Content) (mgr : BufferPoolManager R) (pins : ℕ → List (Page × ℕ)) (fd n : ℕ)
    (results : List Bool) (mgr' : BufferPoolManager R) : Prop where
  length : results.length = n
  results_iff : ∀ k flushed, results[k]? = some flushed → (flushed = true ↔ mgr.Idle ⟨fd, k⟩)
  sound : ∃ place', Sound (fun _ _ => True) content mgr' place' pins
  shape : SameShape mgr mgr'
  frame : ∀ other m, mgr'.frame other m = mgr.frame other m
  idle : ∀ other, InFile mgr other → n ≤ other.fpageId → (mgr'.Idle other ↔ mgr.Idle other)
  saved : ∀ k < n, mgr.Idle ⟨fd, k⟩ → mgr'.disk.Synced (fun _ _ => True) content ⟨fd, k⟩

omit [Replacer R] [LawfulReplacer R] in
/-- The pages of a file that `FlushFile` visits. -/
theorem InRange.inFile {fd k : ℕ} (range : InRange mgr fd 0 0) (below : k < mgr.fpageNum fd) :
    InFile mgr ⟨fd, k⟩ :=
  ⟨range.handle, range.valid, range.small, (lt_ceil_iff (by decide)).mp below⟩

/-- The flush of one page changes nothing for the next ones. -/
theorem Sound.flushPages (sound : Sound (fun _ _ => True) content mgr place pins) {fd : ℕ}
    (range : InRange mgr fd 0 0) (deleteFromMemory : Bool) {n : ℕ} (within : n ≤ mgr.fpageNum fd) :
    ∃ results mgr', mgr.flushPages fd deleteFromMemory n = .ok (results, mgr') ∧
      FileFlush content mgr pins fd n results mgr' := by
  induction n with
  | zero => exact ⟨[], mgr, rfl, rfl, nofun, ⟨place, sound⟩, .refl _, fun _ _ => rfl, fun _ _ _ => Iff.rfl, nofun⟩
  | succ n ih =>
    obtain ⟨results, mid, ran, before⟩ := ih (by omega)
    obtain ⟨place', sound'⟩ := before.sound
    have inFile := range.inFile (Nat.lt_of_succ_le within)
    obtain ⟨flushed, mgr', visited, after⟩ := sound'.flushPage (before.shape.inFile inFile) deleteFromMemory
    have last : flushed = true ↔ mgr.Idle ⟨fd, n⟩ := after.result_iff.trans (before.idle _ inFile le_rfl)
    refine ⟨results ++ [flushed], mgr', ?_, ?_, ?_, after.sound, before.shape.trans after.shape,
      fun other m => (after.frame other m).trans (before.frame other m), ?_, ?_⟩
    · simp only [flushPages_succ, ran, ok_bind]
      dsimp only at visited
      rw [visited]
      rfl
    · rw [List.length_append, before.length, List.length_singleton]
    · intro k result here
      rcases Nat.lt_or_ge k n with earlier | later
      · rw [List.getElem?_append_left (before.length ▸ earlier)] at here
        exact before.results_iff k result here
      · obtain ⟨bound, _⟩ := List.getElem?_eq_some_iff.mp here
        rw [List.length_append, before.length, List.length_singleton] at bound
        obtain rfl : k = n := by omega
        rw [List.getElem?_append_right (by rw [before.length]), before.length, Nat.sub_self] at here
        cases here
        exact last
    · intro other known past
      have apart : other ≠ ⟨fd, n⟩ := by
        rintro rfl
        exact absurd past (Nat.not_succ_le_self n)
      exact (after.idle other (before.shape.inFile known) apart).trans (before.idle other known (by omega))
    · intro k below idle
      rcases Nat.lt_or_ge k n with earlier | later
      · exact after.others _ (before.saved k earlier idle)
      · obtain rfl : k = n := by omega
        exact after.saved (last.mpr idle)

section results

variable {fd n : ℕ} {results : List Bool}

theorem FileFlush.all_iff (flushed : FileFlush content mgr pins fd n results mgr') :
    (∀ result ∈ results, result = true) ↔ ∀ k < n, mgr.Idle ⟨fd, k⟩ := by
  constructor
  · intro all k below
    obtain ⟨result, here⟩ : ∃ result, results[k]? = some result :=
      ⟨_, List.getElem?_eq_getElem (flushed.length.symm ▸ below)⟩
    exact (flushed.results_iff k result here).mp (all result (List.mem_of_getElem? here))
  · intro idle result member
    obtain ⟨k, here⟩ := List.mem_iff_getElem?.mp member
    have below : k < results.length := (List.getElem?_eq_some_iff.mp here).1
    exact (flushed.results_iff k result here).mpr (idle k (flushed.length ▸ below))

theorem FileFlush.last_iff (flushed : FileFlush content mgr pins fd n results mgr') :
    results.getLastD true = true ↔ ∀ last, n = last + 1 → mgr.Idle ⟨fd, last⟩ := by
  rw [List.getLastD_eq_getLast?, List.getLast?_eq_getElem?, flushed.length]
  cases n with
  | zero =>
    obtain rfl := List.length_eq_zero_iff.mp flushed.length
    exact iff_of_true rfl nofun
  | succ last =>
    have inside : last < results.length := flushed.length.symm ▸ Nat.lt_succ_self last
    rw [Nat.add_sub_cancel, List.getElem?_eq_getElem inside, Option.getD_some,
      flushed.results_iff last _ (List.getElem?_eq_getElem inside)]
    constructor
    · rintro idle _ ⟨⟩
      exact idle
    · exact fun idle => idle last rfl

end results

theorem SavingStep.sound {s s' : Session R} (step : SavingStep s s')
    (before : ∃ place, Sound (fun _ _ => True) s.content s.mgr place s.pins) :
    ∃ place, Sound (fun _ _ => True) s'.content s'.mgr place s'.pins := by
  obtain ⟨place, sound⟩ := before
  cases step with
  | session step =>
    obtain ⟨place', sound', _⟩ := step.sound sound
    exact ⟨place', sound'⟩
  | flushPage inFile ran =>
    obtain ⟨_, _, returned, after⟩ := sound.flushPage inFile _
    cases returned.symm.trans ran
    exact after.sound

theorem SavingRun.sound {s : Session R} (run : SavingRun s) :
    ∃ place, Sound (fun _ _ => True) s.content s.mgr place s.pins := by
  refine run.invariant (fun _ start => ?_) fun _ _ before step => step.sound before
  obtain ⟨place, sound, _⟩ := start.holds
  exact ⟨place, sound⟩

/-- `FlushFile` reports what it did if no one holds a page of the file, or if someone holds the last one. -/
theorem flush_file_reports_iff {s : Session R} (run : SavingRun s) {fd : ℕ} (range : InRange s.mgr fd 0 0)
    (deleteFromMemory : Bool) : ReportsFlush s.mgr fd deleteFromMemory ↔
      (∀ k < s.mgr.fpageNum fd, s.mgr.Idle ⟨fd, k⟩) ∨
        ∃ last, s.mgr.fpageNum fd = last + 1 ∧ ¬ s.mgr.Idle ⟨fd, last⟩ := by
  obtain ⟨place, sound⟩ := run.sound
  obtain ⟨results, mgr', ran, flushed⟩ := sound.flushPages range deleteFromMemory le_rfl
  have returned : s.mgr.flushFile fd deleteFromMemory = .ok (results.getLastD true, mgr') := by
    rw [flushFile_eq range.valid, ran]
    rfl
  have correct : (∀ last, s.mgr.fpageNum fd = last + 1 → s.mgr.Idle ⟨fd, last⟩) ↔
      ¬ ∃ last, s.mgr.fpageNum fd = last + 1 ∧ ¬ s.mgr.Idle ⟨fd, last⟩ := by simp
  constructor
  · rintro ⟨results', result, mgr'', ran', returned', reports, _⟩
    cases ran.symm.trans ran'
    cases returned.symm.trans returned'
    rw [flushed.all_iff, flushed.last_iff, correct] at reports
    exact or_iff_not_imp_right.mpr reports.mp
  · intro held
    have reports : results.getLastD true = true ↔ ∀ k < s.mgr.fpageNum fd, s.mgr.Idle ⟨fd, k⟩ := by
      rw [flushed.last_iff]
      refine ⟨fun last => held.resolve_right (correct.mp last), fun all last count => all last ?_⟩
      exact count ▸ Nat.lt_succ_self last
    refine ⟨results, _, mgr', ran, returned, reports.trans flushed.all_iff.symm,
      fun result page same below m word i small => ?_⟩
    subst same
    have idle := reports.mp result _ below
    have resident := ((sound.inv _ (s.mgr.poolOf_lt page)).mapped page (sound.owns (range.inFile below)) m).mp word
    rw [flushed.frame, sound.frame_byte resident small trivial]
    exact flushed.saved page.fpageId below idle i small trivial

/-- A manager of one pool with one frame and a file of two pages of zeros. -/
def twoZeroPages : Session SieveReplacer_v3 :=
  ⟨oneFrame (zeroFile 8192 (by decide)), opened (fun _ _ => 0) 0 (zeroFile 8192 (by decide)).1, fun _ => []⟩

theorem twoZeroPages_run : SavingRun twoZeroPages := .init (.init _ _ _ _)

/-- The first page of two is pinned, and the second is not in memory: the flushes of the two return false and true,
and `FlushFile` returns true. -/
theorem exists_pinned : ∃ s : Session SieveReplacer_v3, SavingRun s ∧ InRange s.mgr 0 0 0 ∧ s.pins 0 = [(⟨0, 0⟩, 0)] ∧
    (∃ flushed, s.mgr.flushPages 0 false (s.mgr.fpageNum 0) = .ok ([false, true], flushed)) ∧
      ∃ flushed, s.mgr.flushFile 0 false = .ok (true, flushed) := by
  have values : (do
      let (m, mgr) ← twoZeroPages.mgr.fetchPageSync 8 ⟨0, 0⟩
      let (results, _) ← mgr.flushPages 0 false (mgr.fpageNum 0)
      let (result, _) ← mgr.flushFile 0 false
      return (m, results, result)) = Except.ok (0, [false, true], true) := by decide +kernel
  obtain ⟨⟨m, mgr⟩, fetch, values⟩ := bind_eq_ok.mp values
  obtain ⟨⟨results, flushed⟩, pages, values⟩ := bind_eq_ok.mp values
  obtain ⟨⟨result, flushed'⟩, file, values⟩ := bind_eq_ok.mp values
  have same : (Except.ok (m, results, result) : Except Stop _) = .ok (0, [false, true], true) := values
  cases same
  have inFile : InFile twoZeroPages.mgr ⟨0, 0⟩ := ⟨by decide, rfl, by decide, by decide⟩
  have fetched := (fetchPageSync_stable ⟨0, 0⟩ twoZeroPages.mgr).returns fetch
  have room (m : ℕ) : Room (twoZeroPages.pins (twoZeroPages.mgr.poolOf ⟨0, 0⟩)) m := by simp [Room, twoZeroPages]
  have run : SavingRun _ := twoZeroPages_run.step (.session (.fetch inFile room fetched))
  obtain ⟨place, sound⟩ := twoZeroPages_run.sound
  obtain ⟨_, _, _, shape, _⟩ := sound.fetched inFile room fetched
  exact ⟨_, run, shape.inRange ⟨by decide, rfl, by decide, by decide⟩, rfl, ⟨flushed, pages⟩, flushed', file⟩

/-- A page of the file is pinned, and `FlushFile` does not report it. -/
theorem flush_file_reports_pinnedPage : ∃ s : Session SieveReplacer_v3, s.pins 0 = [(⟨0, 0⟩, 0)] ∧
    (ReportsFlush s.mgr 0 false ↔ (∀ k < s.mgr.fpageNum 0, s.mgr.Idle ⟨0, k⟩) ∨
      ∃ last, s.mgr.fpageNum 0 = last + 1 ∧ ¬ s.mgr.Idle ⟨0, last⟩) := by
  obtain ⟨s, run, range, pinned, _⟩ := exists_pinned
  exact ⟨s, pinned, flush_file_reports_iff run range false⟩

/-- The first page of two is pinned: its flush fails, and `FlushFile` returns true. -/
theorem not_flush_file_reports : ¬ ∀ (s : Session SieveReplacer_v3) (fd : ℕ) (deleteFromMemory : Bool),
    SavingRun s → InRange s.mgr fd 0 0 → ReportsFlush s.mgr fd deleteFromMemory := by
  intro claimed
  obtain ⟨s, run, range, _, ⟨_, pages⟩, _, file⟩ := exists_pinned
  obtain ⟨_, _, _, pages', file', reports, _⟩ := claimed _ 0 false run range
  cases pages.symm.trans pages'
  cases file.symm.trans file'
  have wrong := reports.mp rfl false (by simp)
  cases wrong

end Gbp.BufferPoolManager
