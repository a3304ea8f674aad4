import GraphBufferPool.Lib.Owners
import GraphBufferPool.Lib.Runs
import GraphBufferPool.MmapArray.MmapArray

/-! # Who closes a file

Runs over any set of `mmap_array` objects. An object that holds the handle of a file is its only owner, and
closes it in `close`, `reset`, `open` and its destructor. Three things break this: a handle equal to
`INVALID_FILE_HANDLE`, the -1 of a failed `open`, and `swap` called on an object that holds a handle.
-/

namespace Gbp

open Function Ownership

/-- What a member function or the destructor does to one object. -/
inductive ArrayOp
  | open (filename : String) (readOnly : Bool) (file : Option ℕ) (itemSize chunkSize : ℕ)
  | close
  | reset
  | use
  | destroy

/-- The object after the operation, where there still is one, and the calls to the manager. -/
def ArrayOp.run (array : MmapArray) (log : FileLog) : ArrayOp → Option MmapArray × FileLog
  | .open filename readOnly file itemSize chunkSize =>
    let (array, log) := array.open log filename readOnly file itemSize chunkSize
    (some array, log)
  | .close =>
    let (array, log) := array.close log
    (some array, log)
  | .reset =>
    let (array, log) := array.reset log
    (some array, log)
  | .use => (some array, log.use array.fdGbp)
  | .destroy =>
    let (_, log) := array.close log
    (none, log)

/-- The operation calls `OpenFile`. -/
def ArrayOp.opens : ArrayOp → Prop
  | .open _ readOnly file _ _ => ¬ (readOnly = true ∧ file = none)
  | _ => False

/-- A call on the objects of a program. -/
inductive ArrayCall (O : Type)
  | construct (o : O)
  | move (o rhs : O)
  | swap (o rhs : O)
  | operate (o : O) (op : ArrayOp)

/-- The objects there are, and their calls to the manager. -/
structure Arrays (O : Type) where
  arrays : O → Option MmapArray
  log : FileLog

namespace FileLog

/-- The handles returned and not closed since. -/
def live (log : FileLog) : Set ℕ := {fd | .openFile fd ∈ log.calls ∧ .closeFile fd ∉ log.calls}

end FileLog

/-- Every `CloseFile`, at most one for each handle, comes after the `OpenFile` and after every use of it; the
latest call stands first. -/
structure Orderly (calls : List FileCall) : Prop where
  once : ∀ fd, calls.count (.closeFile fd) ≤ 1
  last : ∀ after before fd, calls = after ++ .closeFile fd :: before → .use fd ∉ after
  returned : ∀ after before fd, calls = after ++ .closeFile fd :: before → .openFile fd ∈ before

/-- `CloseFile` is called exactly once for each handle returned by `OpenFile`, only after the last use of it,
and never with another value. -/
structure OwnsHandles (calls : List FileCall) : Prop where
  once : ∀ fd, .openFile fd ∈ calls → calls.count (.closeFile fd) = 1
  last : ∀ after before fd, calls = after ++ .closeFile fd :: before → .use fd ∉ after
  returned : ∀ after before fd, calls = after ++ .closeFile fd :: before → .openFile fd ∈ before

section operations

variable {array : MmapArray} {log : FileLog}

theorem MmapArray.handle?_eq_some_iff {fd : ℕ} : array.handle? = some fd ↔
    array.fdGbp = fd ∧ fd ≠ invalidFileHandle ∧ fd ≠ noFile := by
  unfold handle?
  split_ifs with none
  · constructor
    · exact nofun
    · rintro ⟨rfl, valid, known⟩
      exact (none.elim valid known).elim
  · rw [Option.some_inj]
    constructor
    · rintro rfl
      exact ⟨rfl, not_or.mp none⟩
    · exact And.left

theorem MmapArray.handle?_eq_none_iff : array.handle? = none ↔
    array.fdGbp = invalidFileHandle ∨ array.fdGbp = noFile := by
  unfold handle?
  split_ifs with none
  · exact iff_of_true rfl none
  · exact iff_of_false nofun none

/-- What `close` does to the field, and its calls. -/
theorem MmapArray.close_eq : array.close log = ({ array with fdGbp := invalidFileHandle },
    if array.fdGbp = invalidFileHandle then log else log.closeFile array.fdGbp) := by
  unfold close
  by_cases empty : array.fdGbp = invalidFileHandle
  · rw [if_neg (not_not.mpr empty), if_pos empty, ← empty]
  · rw [if_pos empty, if_neg empty]

theorem MmapArray.close_opened : (array.close log).2.opened = log.opened := by
  rw [MmapArray.close_eq]
  dsimp only
  split_ifs <;> rfl

/-- What an operation does: it uses the handle, or it closes it and then opens a file or not. -/
theorem ArrayOp.run_cases (op : ArrayOp) (array : MmapArray) (log : FileLog) :
    (op = .use ∧ op.run array log = (some array, log.use array.fdGbp)) ∨
      (op ≠ .use ∧ ¬ op.opens ∧ ∃ array' : Option MmapArray, array'.bind MmapArray.handle? = none ∧
        op.run array log = (array', (array.close log).2)) ∨
      op ≠ .use ∧ op.opens ∧ ∃ array' : MmapArray, array'.fdGbp = log.opened % 2 ^ 32 ∧
        op.run array log = (some array', (array.close log).2.openFile.2) := by
  cases op with
  | use => exact Or.inl ⟨rfl, rfl⟩
  | close =>
    right; left
    exact ⟨nofun, id, some (array.close log).1, by simp [MmapArray.close_eq, MmapArray.handle?], rfl⟩
  | destroy => exact Or.inr (Or.inl ⟨nofun, id, none, rfl, rfl⟩)
  | reset =>
    right; left
    refine ⟨nofun, id, some (array.reset log).1, ?_, ?_⟩
    · simp [MmapArray.reset, MmapArray.close_eq, MmapArray.handle?]
    · simp [run, MmapArray.reset, MmapArray.close_eq]
  | «open» filename readOnly file itemSize chunkSize =>
    right
    by_cases missing : readOnly = true ∧ file = none
    · left
      refine ⟨nofun, fun opens => opens missing,
        some (array.open log filename readOnly file itemSize chunkSize).1, ?_, ?_⟩
      · simp [MmapArray.open, missing, MmapArray.handle?]
      · simp [run, MmapArray.open, missing, MmapArray.reset, MmapArray.close_eq]
    · right
      refine ⟨nofun, missing, (array.open log filename readOnly file itemSize chunkSize).1, ?_, ?_⟩
      · simp only [MmapArray.open, missing, if_false, FileLog.openFile, MmapArray.reset]
        exact congrArg (· % 2 ^ 32) MmapArray.close_opened
      · simp [run, MmapArray.open, missing, MmapArray.reset, MmapArray.close_eq]

end operations

section calls

variable {calls : List FileCall} {fd : ℕ}

theorem orderly_nil : Orderly [] where
  once _ := Nat.zero_le 1
  last _ _ _ same := absurd same.symm (by simp)
  returned _ _ _ same := absurd same.symm (by simp)

theorem Orderly.opened_of_closed (orderly : Orderly calls) (closed : .closeFile fd ∈ calls) :
    .openFile fd ∈ calls := by
  obtain ⟨after, before, rfl⟩ := List.append_of_mem closed
  exact List.mem_append_right _ (List.mem_cons_of_mem _ (orderly.returned after before fd rfl))

theorem ownsHandles_iff : OwnsHandles calls ↔
    Orderly calls ∧ ∀ fd, .openFile fd ∈ calls → .closeFile fd ∈ calls := by
  constructor
  · intro owns
    refine ⟨⟨fun fd => ?_, owns.last, owns.returned⟩, fun fd opened => ?_⟩
    · rcases Nat.eq_zero_or_pos (calls.count (.closeFile fd)) with none | some
      · omega
      · obtain ⟨after, before, same⟩ := List.append_of_mem (List.count_pos_iff.mp some)
        have opened := owns.returned after before fd same
        exact (owns.once fd (same ▸ by simp [opened])).le
    · exact List.count_pos_iff.mp (by rw [owns.once fd opened]; exact Nat.one_pos)
  · rintro ⟨orderly, closed⟩
    refine ⟨fun fd opened => ?_, orderly.last, orderly.returned⟩
    exact le_antisymm (orderly.once fd) (List.count_pos_iff.mpr (closed fd opened))

private theorem split_cons {call : FileCall} {after before : List FileCall}
    (same : call :: calls = after ++ .closeFile fd :: before) :
    after = [] ∧ call = .closeFile fd ∧ calls = before ∨
      ∃ rest, after = call :: rest ∧ calls = rest ++ .closeFile fd :: before := by
  cases after with
  | nil =>
    cases same
    exact Or.inl ⟨rfl, rfl, rfl⟩
  | cons first rest =>
    cases same
    exact Or.inr ⟨rest, rfl, rfl⟩

theorem Orderly.openFile (orderly : Orderly calls) (fd : ℕ) : Orderly (.openFile fd :: calls) where
  once other := by
    rw [List.count_cons_of_ne (by simp)]
    exact orderly.once other
  last after before other same := by
    rcases split_cons same with ⟨_, impossible, _⟩ | ⟨rest, rfl, earlier⟩
    · cases impossible
    · simp [orderly.last rest before other earlier]
  returned after before other same := by
    rcases split_cons same with ⟨_, impossible, _⟩ | ⟨rest, rfl, earlier⟩
    · cases impossible
    · exact orderly.returned rest before other earlier

theorem Orderly.use (orderly : Orderly calls) (unclosed : .closeFile fd ∉ calls) :
    Orderly (.use fd :: calls) where
  once other := by
    rw [List.count_cons_of_ne (by simp)]
    exact orderly.once other
  last after before other same := by
    rcases split_cons same with ⟨_, impossible, _⟩ | ⟨rest, rfl, earlier⟩
    · cases impossible
    · have apart : other ≠ fd := by
        rintro rfl
        exact unclosed (earlier ▸ by simp)
      simp [apart, orderly.last rest before other earlier]
  returned after before other same := by
    rcases split_cons same with ⟨_, impossible, _⟩ | ⟨rest, rfl, earlier⟩
    · cases impossible
    · exact orderly.returned rest before other earlier

theorem Orderly.closeFile (orderly : Orderly calls) (opened : .openFile fd ∈ calls)
    (unclosed : .closeFile fd ∉ calls) : Orderly (.closeFile fd :: calls) where
  once other := by
    by_cases same : other = fd
    · subst same
      rw [List.count_cons_self, List.count_eq_zero.mpr unclosed]
    · rw [List.count_cons_of_ne (by simpa using Ne.symm same)]
      exact orderly.once other
  last after before other same := by
    rcases split_cons same with ⟨rfl, _, _⟩ | ⟨rest, rfl, earlier⟩
    · simp
    · simp [orderly.last rest before other earlier]
  returned after before other same := by
    rcases split_cons same with ⟨_, here, rfl⟩ | ⟨rest, rfl, earlier⟩
    · cases here
      exact opened
    · exact orderly.returned rest before other earlier

theorem Orderly.of_append {new : List FileCall} (orderly : Orderly (new ++ calls)) : Orderly calls where
  once fd := by
    have both := orderly.once fd
    rw [List.count_append] at both
    omega
  last after before fd same := by
    have whole := orderly.last (new ++ after) before fd (by rw [same, List.append_assoc])
    exact fun used => whole (List.mem_append_right _ used)
  returned after before fd same :=
    orderly.returned (new ++ after) before fd (by rw [same, List.append_assoc])

end calls

namespace Arrays

variable {O : Type} [DecidableEq O]

/-- No object yet, and no file. -/
def start : Arrays O := ⟨fun _ => none, ⟨0, []⟩⟩

/-- An object after an operation. -/
def put (s : Arrays O) (o : O) (array : Option MmapArray) (log : FileLog) : Arrays O :=
  ⟨update s.arrays o array, log⟩

/-- The program after a call. An object is constructed once and used while it is there; an item has at least
one byte. -/
def step (s : Arrays O) : ArrayCall O → Except Unit (Arrays O)
  | .construct o =>
    match s.arrays o with
    | none => .ok (s.put o (some .new) s.log)
    | some _ => .error ()
  | .move o p =>
    match s.arrays o, s.arrays p with
    | none, some rhs =>
      let (array, rhs) := MmapArray.new.swap rhs
      .ok ((s.put o (some array) s.log).put p (some rhs) s.log)
    | _, _ => .error ()
  | .swap o p =>
    match s.arrays o, s.arrays p with
    | some array, some rhs =>
      if o = p then .ok (s.put o (some array.swapSelf) s.log)
      else
        let (array, rhs) := array.swap rhs
        .ok ((s.put o (some array) s.log).put p (some rhs) s.log)
    | _, _ => .error ()
  | .operate o op =>
    match s.arrays o with
    | none => .error ()
    | some array =>
      let (array', log) := op.run array s.log
      match op with
      | .open _ _ _ 0 _ => .error ()
      | _ => .ok (s.put o array' log)

/-- The handle an object holds. -/
def owner (s : Arrays O) (o : O) : Option ℕ := (s.arrays o).bind MmapArray.handle?

/-- What a call needs to keep the handles owned: `swap` is called on an object without a handle, and an object
with the -1 of a failed `open` is not closed, reset, opened or destroyed. The file opened is not the
65536th one. -/
def KeepsHandles (s : Arrays O) : ArrayCall O → Prop
  | .construct _ | .move _ _ | .operate _ .use => True
  | .swap o _ => s.owner o = none
  | .operate o (.open _ readOnly file _ _) => (∀ array, s.arrays o = some array → array.fdGbp ≠ noFile) ∧
      (readOnly = true ∧ file = none ∨ s.log.opened ≠ invalidFileHandle)
  | .operate o .close | .operate o .reset | .operate o .destroy => ∀ array, s.arrays o = some array → array.fdGbp ≠ noFile

/-- Every open handle has one owner, and the 65536th file is not opened. -/
structure Owned (s : Arrays O) : Prop where
  few : s.log.opened ≤ invalidFileHandle
  issued : ∀ fd, .openFile fd ∈ s.log.calls ↔ fd < s.log.opened
  orderly : Orderly s.log.calls
  owners : Owners s.owner s.log.live

/-- A handle was closed wrongly or is lost for good, or it is the one that is never closed. -/
structure Spoilt (s : Arrays O) : Prop where
  never : .closeFile invalidFileHandle ∉ s.log.calls
  spoilt : ¬ Orderly s.log.calls ∨
    (s.log.opened ≤ invalidFileHandle ∧ ∃ fd < s.log.opened, fd ∈ s.log.live ∧ ∀ o, s.owner o ≠ some fd) ∨
    .openFile invalidFileHandle ∈ s.log.calls

/-- What any call does to the handles: it closes only what an object has in its field, and a new handle in an
object is the next one. -/
structure Moves (s s' : Arrays O) (new : List FileCall) : Prop where
  calls : s'.log.calls = new ++ s.log.calls
  closes : ∀ fd, .closeFile fd ∈ new → fd ≠ invalidFileHandle ∧ (fd = noFile ∨ ∃ o, s.owner o = some fd)
  opened : s'.log.opened = s.log.opened ∨
    s'.log.opened = s.log.opened + 1 ∧ .openFile (s.log.opened % 2 ^ 32) ∈ new
  owner : ∀ o fd, s'.owner o = some fd → (∃ p, s.owner p = some fd) ∨
    s'.log.opened = s.log.opened + 1 ∧ fd = s.log.opened % 2 ^ 32

variable {s s' : Arrays O} {o : O} {array : MmapArray}

@[simp] theorem put_log (array : Option MmapArray) (log : FileLog) : (s.put o array log).log = log := rfl

theorem put_owner (array : Option MmapArray) (log : FileLog) :
    (s.put o array log).owner = update s.owner o (array.bind MmapArray.handle?) := by
  funext p
  by_cases here : p = o
  · subst here
    simp [owner, put]
  · simp [owner, put, here]

omit [DecidableEq O] in
theorem owned_start : Owned (start (O := O)) where
  few := Nat.zero_le _
  issued fd := iff_of_false nofun (Nat.not_lt_zero fd)
  orderly := orderly_nil
  owners := by
    have empty : (start (O := O)).log.live = ∅ := Set.eq_empty_of_forall_notMem fun _ member => nomatch member.1
    rw [empty]
    exact Owners.nobody

omit [DecidableEq O] in
theorem Owned.fresh (owned : Owned s) {fd : ℕ} (past : s.log.opened ≤ fd) :
    .openFile fd ∉ s.log.calls ∧ .closeFile fd ∉ s.log.calls := by
  have unopened : .openFile fd ∉ s.log.calls := fun opened => by
    have := (owned.issued fd).mp opened
    omega
  exact ⟨unopened, fun closed => unopened (owned.orderly.opened_of_closed closed)⟩

omit [DecidableEq O] in
/-- A handle in a field is one that was returned and not closed. -/
theorem Owned.live (owned : Owned s) (here : s.arrays o = some array) {fd : ℕ}
    (holds : array.handle? = some fd) : fd ∈ s.log.live := by
  apply owned.owners.mem (o := o)
  rw [owner, here]
  exact holds

/-- An object gives its handle back, if it has one. -/
theorem Owned.close (owned : Owned s) (here : s.arrays o = some array) (known : array.fdGbp ≠ noFile)
    {array' : Option MmapArray} (empty : array'.bind MmapArray.handle? = none) :
    Owned (s.put o array' (array.close s.log).2) := by
  have holder : s.owner o = array.handle? := by
    rw [owner, here]
    rfl
  by_cases invalid : array.fdGbp = invalidFileHandle
  · have unowned : s.owner o = none := holder.trans (MmapArray.handle?_eq_none_iff.mpr (Or.inl invalid))
    rw [MmapArray.close_eq, if_pos invalid]
    refine ⟨owned.few, owned.issued, owned.orderly, ?_⟩
    rw [put_owner, empty, ← unowned, update_eq_self]
    exact owned.owners
  · have holds : array.handle? = some array.fdGbp := MmapArray.handle?_eq_some_iff.mpr ⟨rfl, invalid, known⟩
    obtain ⟨opened, unclosed⟩ := owned.live here holds
    rw [MmapArray.close_eq, if_neg invalid]
    refine ⟨owned.few, fun fd => ?_, owned.orderly.closeFile opened unclosed, ?_⟩
    · refine Iff.trans ?_ (owned.issued fd)
      simp [FileLog.closeFile]
    · have live : (s.log.closeFile array.fdGbp).live = s.log.live \ {array.fdGbp} := by
        ext fd
        simp [FileLog.live, FileLog.closeFile]
        tauto
      rw [put_owner, empty, put_log, live]
      exact owned.owners.release (holder.trans holds)

/-- An object without a handle opens a file. -/
theorem Owned.open (owned : Owned s) (empty : s.owner o = none) (few : s.log.opened ≠ invalidFileHandle)
    (handle : array.fdGbp = s.log.opened % 2 ^ 32) :
    Owned (s.put o (some array) s.log.openFile.2) := by
  have bound := owned.few
  have small : s.log.opened % 2 ^ 32 = s.log.opened := Nat.mod_eq_of_lt (by simp only [invalidFileHandle] at bound; omega)
  obtain ⟨unopened, unclosed⟩ := owned.fresh le_rfl
  have holds : array.handle? = some s.log.opened := by
    rw [MmapArray.handle?_eq_some_iff, handle, small]
    refine ⟨rfl, few, ?_⟩
    simp only [invalidFileHandle, noFile] at bound ⊢
    omega
  refine ⟨?_, fun fd => ?_, owned.orderly.openFile _, ?_⟩
  · simp only [put_log, FileLog.openFile, invalidFileHandle] at *
    omega
  · simp only [put_log, FileLog.openFile, small, List.mem_cons, FileCall.openFile.injEq, owned.issued]
    omega
  · have live : s.log.openFile.2.live = insert s.log.opened s.log.live := by
      ext fd
      simp only [FileLog.live, FileLog.openFile, small, Set.mem_ofPred_eq, Set.mem_insert_iff, List.mem_cons,
        FileCall.openFile.injEq, reduceCtorEq, false_or]
      constructor
      · tauto
      · rintro (rfl | both)
        · exact ⟨Or.inl rfl, unclosed⟩
        · exact ⟨Or.inr both.1, both.2⟩
    rw [put_owner, put_log, live]
    refine (congrArg (fun held => Owners (update s.owner o held) _) holds).mpr ?_
    exact owned.owners.acquire empty fun member => unopened member.1

/-- An object uses what it has in its field. -/
theorem Owned.use (owned : Owned s) (here : s.arrays o = some array) :
    Owned (s.put o (some array) (s.log.use array.fdGbp)) := by
  have unclosed : .closeFile array.fdGbp ∉ s.log.calls := by
    by_cases none : array.fdGbp = invalidFileHandle ∨ array.fdGbp = noFile
    · refine (owned.fresh ?_).2
      have bound := owned.few
      simp only [invalidFileHandle, noFile] at *
      omega
    · obtain ⟨valid, known⟩ := not_or.mp none
      exact (owned.live here (MmapArray.handle?_eq_some_iff.mpr ⟨rfl, valid, known⟩)).2
  refine ⟨owned.few, fun fd => ?_, owned.orderly.use unclosed, ?_⟩
  · refine Iff.trans ?_ (owned.issued fd)
    simp [FileLog.use]
  · have live : (s.log.use array.fdGbp).live = s.log.live := by
      ext fd
      simp [FileLog.live, FileLog.use]
    have same : (some array).bind MmapArray.handle? = s.owner o := by rw [owner, here]
    rw [put_owner, put_log, live, same, update_eq_self]
    exact owned.owners

omit [DecidableEq O] in
/-- A call that hands over handles only. -/
theorem Owned.of_owners (owned : Owned s) (log : s'.log = s.log) (owners : Owners s'.owner s.log.live) :
    Owned s' := by
  refine ⟨?_, ?_, ?_, ?_⟩ <;> rw [log]
  · exact owned.few
  · exact owned.issued
  · exact owned.orderly
  · exact owners

theorem swap_owner {p : O} {rhs : MmapArray} (there : s.arrays p = some rhs) :
    ((s.put o (some (array.swap rhs).1) s.log).put p (some (array.swap rhs).2) s.log).owner =
      update (update s.owner o (s.owner p)) p none := by
  have moved : (some (array.swap rhs).1).bind MmapArray.handle? = s.owner p := by
    rw [owner, there]
    rfl
  have left : (some (array.swap rhs).2).bind MmapArray.handle? = none := by
    simp [MmapArray.swap, MmapArray.handle?]
  rw [put_owner, put_owner, moved, left]

omit [DecidableEq O] in
/-- A call that opens and closes nothing. -/
theorem Moves.silent (log : s'.log = s.log)
    (owner : ∀ o fd, s'.owner o = some fd → ∃ p, s.owner p = some fd) : Moves s s' [] where
  calls := congrArg FileLog.calls log
  closes := nofun
  opened := Or.inl (congrArg FileLog.opened log)
  owner o fd holds := Or.inl (owner o fd holds)

/-- The calls of `close`. -/
def closing (array : MmapArray) : List FileCall :=
  if array.fdGbp = invalidFileHandle then [] else [.closeFile array.fdGbp]

theorem closing_calls (log : FileLog) : (array.close log).2.calls = closing array ++ log.calls := by
  rw [MmapArray.close_eq, closing]
  dsimp only
  split_ifs <;> rfl

omit [DecidableEq O] in
theorem closing_closes (here : s.arrays o = some array) {fd : ℕ} (member : .closeFile fd ∈ closing array) :
    fd ≠ invalidFileHandle ∧ (fd = noFile ∨ ∃ o, s.owner o = some fd) := by
  unfold closing at member
  split_ifs at member with invalid
  · cases member
  · obtain rfl : fd = array.fdGbp := FileCall.closeFile.inj (List.mem_singleton.mp member)
    refine ⟨invalid, or_iff_not_imp_left.mpr fun known => ⟨o, ?_⟩⟩
    rw [owner, here]
    exact MmapArray.handle?_eq_some_iff.mpr ⟨rfl, invalid, known⟩

/-- What an object holds after an operation on one of them. -/
theorem put_owner_cases {array : Option MmapArray} {log : FileLog} {p : O} {fd : ℕ}
    (holds : (s.put o array log).owner p = some fd) :
    array.bind MmapArray.handle? = some fd ∨ s.owner p = some fd := by
  rw [put_owner] at holds
  by_cases here : p = o
  · rw [here, update_self] at holds
    exact Or.inl holds
  · rw [update_of_ne here] at holds
    exact Or.inr holds

theorem construct_shape (ran : s.step (.construct o) = .ok s') :
    s.arrays o = none ∧ s' = s.put o (some .new) s.log := by
  simp only [step] at ran
  split at ran
  · next absent => exact ⟨absent, (Except.ok.inj ran).symm⟩
  · cases ran

theorem move_shape {p : O} (ran : s.step (.move o p) = .ok s') : ∃ rhs, s.arrays o = none ∧
    s.arrays p = some rhs ∧ s' = (s.put o (some (MmapArray.new.swap rhs).1) s.log).put p
      (some (MmapArray.new.swap rhs).2) s.log := by
  simp only [step] at ran
  split at ran
  · next rhs absent present => exact ⟨rhs, absent, present, (Except.ok.inj ran).symm⟩
  · cases ran

theorem swap_shape {p : O} (ran : s.step (.swap o p) = .ok s') :
    ∃ array rhs, s.arrays o = some array ∧ s.arrays p = some rhs ∧
      (o = p ∧ s' = s.put o (some array.swapSelf) s.log ∨
        o ≠ p ∧ s' = (s.put o (some (array.swap rhs).1) s.log).put p (some (array.swap rhs).2) s.log) := by
  simp only [step] at ran
  split at ran
  · next array rhs here there =>
    refine ⟨array, rhs, here, there, ?_⟩
    split_ifs at ran with same
    · exact Or.inl ⟨same, (Except.ok.inj ran).symm⟩
    · exact Or.inr ⟨same, (Except.ok.inj ran).symm⟩
  · cases ran

theorem operate_shape {op : ArrayOp} (ran : s.step (.operate o op) = .ok s') :
    ∃ array, s.arrays o = some array ∧ s' = s.put o (op.run array s.log).1 (op.run array s.log).2 := by
  simp only [step] at ran
  split at ran
  · cases ran
  · next array here =>
    refine ⟨array, here, ?_⟩
    split at ran
    · cases ran
    · exact (Except.ok.inj ran).symm

/-- Every call moves handles this way. -/
theorem exists_moves {c : ArrayCall O} (ran : s.step c = .ok s') : ∃ new, Moves s s' new := by
  cases c with
  | construct o =>
    obtain ⟨_, rfl⟩ := construct_shape ran
    refine ⟨[], .silent rfl fun p fd holds => ?_⟩
    rcases put_owner_cases holds with new | old
    · simp [MmapArray.new, MmapArray.handle?] at new
    · exact ⟨p, old⟩
  | move o p =>
    obtain ⟨rhs, _, there, rfl⟩ := move_shape ran
    refine ⟨[], .silent rfl fun q fd holds => ?_⟩
    rw [swap_owner there, update_apply, update_apply] at holds
    split_ifs at holds
    · exact ⟨p, holds⟩
    · exact ⟨q, holds⟩
  | swap o p =>
    obtain ⟨array, rhs, _, there, ⟨_, rfl⟩ | ⟨_, rfl⟩⟩ := swap_shape ran
    · refine ⟨[], .silent rfl fun q fd holds => ?_⟩
      rcases put_owner_cases holds with none | old
      · simp [MmapArray.swapSelf, MmapArray.handle?] at none
      · exact ⟨q, old⟩
    · refine ⟨[], .silent rfl fun q fd holds => ?_⟩
      rw [swap_owner there, update_apply, update_apply] at holds
      split_ifs at holds
      · exact ⟨p, holds⟩
      · exact ⟨q, holds⟩
  | operate o op =>
    obtain ⟨array, here, rfl⟩ := operate_shape ran
    have held {fd : ℕ} (holds : array.handle? = some fd) : s.owner o = some fd := by
      rw [owner, here]
      exact holds
    rcases op.run_cases array s.log with ⟨_, same⟩ | ⟨_, _, array', empty, same⟩ | ⟨_, _, array', handle, same⟩
    · rw [same]
      refine ⟨[.use array.fdGbp], rfl, fun fd member => absurd (List.mem_singleton.mp member) nofun,
        Or.inl rfl, fun p fd holds => Or.inl ?_⟩
      rcases put_owner_cases holds with kept | old
      · exact ⟨o, held kept⟩
      · exact ⟨p, old⟩
    · rw [same]
      refine ⟨closing array, closing_calls _, fun fd member => closing_closes here member,
        Or.inl MmapArray.close_opened, fun p fd holds => Or.inl ?_⟩
      rcases put_owner_cases holds with none | old
      · rw [empty] at none
        cases none
      · exact ⟨p, old⟩
    · rw [same]
      have kept : (array.close s.log).2.opened = s.log.opened := MmapArray.close_opened
      have opened : (array.close s.log).2.openFile.2.opened = s.log.opened + 1 := congrArg (· + 1) kept
      refine ⟨.openFile (s.log.opened % 2 ^ 32) :: closing array, ?_, fun fd member => ?_,
        Or.inr ⟨opened, List.mem_cons_self ..⟩, fun p fd holds => ?_⟩
      · rw [List.cons_append, ← closing_calls, ← kept]
        rfl
      · exact closing_closes here ((List.mem_cons.mp member).resolve_left nofun)
      · rcases put_owner_cases holds with next | old
        · obtain ⟨rfl, _⟩ := MmapArray.handle?_eq_some_iff.mp next
          exact Or.inr ⟨opened, handle⟩
        · exact Or.inl ⟨p, old⟩

/-- Once spoilt, the handles stay so. -/
theorem Spoilt.step {c : ArrayCall O} (bad : Spoilt s) (ran : s.step c = .ok s') : Spoilt s' := by
  obtain ⟨new, moves⟩ := exists_moves ran
  refine ⟨?_, ?_⟩
  · rw [moves.calls, List.mem_append, not_or]
    exact ⟨fun member => (moves.closes _ member).1 rfl, bad.never⟩
  · rcases bad.spoilt with broken | ⟨few, fd, below, ⟨opened, unclosed⟩, unheld⟩ | last
    · left
      rw [moves.calls]
      exact fun orderly => broken orderly.of_append
    · have lost : fd ∈ s'.log.live := by
        refine ⟨?_, ?_⟩
        · rw [moves.calls]
          exact List.mem_append_right _ opened
        · rw [moves.calls, List.mem_append, not_or]
          refine ⟨fun member => ?_, unclosed⟩
          rcases (moves.closes fd member).2 with rfl | ⟨o, holds⟩
          · simp only [invalidFileHandle, noFile] at *
            omega
          · exact unheld o holds
      right
      rcases moves.opened with same | ⟨next, member⟩
      · refine Or.inl ⟨same ▸ few, fd, same ▸ below, lost, fun o holds => ?_⟩
        rcases moves.owner o fd holds with ⟨p, old⟩ | ⟨grown, _⟩
        · exact unheld p old
        · omega
      · have small : s.log.opened % 2 ^ 32 = s.log.opened :=
          Nat.mod_eq_of_lt (by simp only [invalidFileHandle] at few; omega)
        rcases Nat.lt_or_eq_of_le few with room | full
        · refine Or.inl ⟨by omega, fd, by omega, lost, fun o holds => ?_⟩
          rcases moves.owner o fd holds with ⟨p, old⟩ | ⟨_, latest⟩
          · exact unheld p old
          · omega
        · right
          rw [small, full] at member
          rw [moves.calls]
          exact List.mem_append_left _ member
    · right; right
      rw [moves.calls]
      exact List.mem_append_right _ last

/-- What spoils owned handles. -/
theorem Owned.spoilt {c : ArrayCall O} (owned : Owned s) (ran : s.step c = .ok s')
    (spoilt : ¬ Orderly s'.log.calls ∨
      (s'.log.opened ≤ invalidFileHandle ∧ Lost s'.owner s'.log.live ∧ s'.log = s.log) ∨
      .openFile invalidFileHandle ∈ s'.log.calls) : Spoilt s' := by
  obtain ⟨new, moves⟩ := exists_moves ran
  refine ⟨?_, spoilt.imp_right (Or.imp_left ?_)⟩
  · rw [moves.calls, List.mem_append, not_or]
    exact ⟨fun member => (moves.closes _ member).1 rfl, (owned.fresh owned.few).2⟩
  · rintro ⟨few, ⟨fd, live, unheld⟩, log⟩
    refine ⟨few, fd, ?_, live, unheld⟩
    rw [log]
    rw [log] at live
    exact (owned.issued fd).mp live.1

omit [DecidableEq O] in
/-- Closing the -1 of a failed `open` is a call with a value no `OpenFile` returned. -/
theorem Owned.closing_noFile (owned : Owned s) (unknown : array.fdGbp = noFile) :
    ¬ Orderly (closing array ++ s.log.calls) := by
  intro orderly
  have calls : closing array = [.closeFile noFile] := by
    rw [closing, unknown]
    rfl
  rw [calls] at orderly
  have opened := orderly.opened_of_closed (List.mem_cons_self ..)
  have := (owned.issued noFile).mp ((List.mem_cons.mp opened).resolve_left nofun)
  have few := owned.few
  simp only [invalidFileHandle, noFile] at *
  omega

omit [DecidableEq O] in
theorem keepsHandles_operate {op : ArrayOp} (here : s.arrays o = some array) :
    KeepsHandles s (.operate o op) ↔
      op = .use ∨ array.fdGbp ≠ noFile ∧ (op.opens → s.log.opened ≠ invalidFileHandle) := by
  cases op <;> simp [KeepsHandles, here, ArrayOp.opens]
  tauto

/-- One call on owned handles keeps them owned exactly where it meets its condition, and spoils them
otherwise. -/
theorem Owned.step {c : ArrayCall O} (owned : Owned s) (ran : s.step c = .ok s') :
    KeepsHandles s c ∧ Owned s' ∨ ¬ KeepsHandles s c ∧ Spoilt s' := by
  cases c with
  | construct o =>
    obtain ⟨absent, rfl⟩ := construct_shape ran
    refine Or.inl ⟨trivial, owned.of_owners rfl ?_⟩
    have none : s.owner o = none := by
      rw [owner, absent]
      rfl
    have same : update s.owner o ((some MmapArray.new).bind MmapArray.handle?) = s.owner := by
      rw [show (some MmapArray.new).bind MmapArray.handle? = s.owner o from none.symm, update_eq_self]
    rw [put_owner, same]
    exact owned.owners
  | move o p =>
    obtain ⟨rhs, absent, there, rfl⟩ := move_shape ran
    refine Or.inl ⟨trivial, owned.of_owners rfl ?_⟩
    have other : o ≠ p := by
      rintro rfl
      rw [absent] at there
      cases there
    rw [swap_owner there]
    exact owned.owners.transfer (by rw [owner, absent]; rfl) other
  | swap o p =>
    obtain ⟨array, rhs, here, there, shape⟩ := swap_shape ran
    have self : (some array.swapSelf).bind MmapArray.handle? = none := by
      simp [MmapArray.swapSelf, MmapArray.handle?]
    cases holds : s.owner o with
    | none =>
      refine Or.inl ⟨holds, ?_⟩
      rcases shape with ⟨_, rfl⟩ | ⟨other, rfl⟩
      · refine owned.of_owners rfl ?_
        rw [put_owner, self, ← holds, update_eq_self]
        exact owned.owners
      · refine owned.of_owners rfl ?_
        rw [swap_owner there]
        exact owned.owners.transfer holds other
    | some fd =>
      right
      have log : s'.log = s.log := by rcases shape with ⟨_, rfl⟩ | ⟨_, rfl⟩ <;> rfl
      refine ⟨fun keeps => by simp [KeepsHandles, holds] at keeps, owned.spoilt ran (Or.inr (Or.inl ?_))⟩
      refine ⟨log ▸ owned.few, ?_, log⟩
      rw [log]
      refine owned.owners.drop holds fun q still => ?_
      rcases shape with ⟨_, rfl⟩ | ⟨other, rfl⟩
      · rw [put_owner, self] at still
        by_cases at_o : q = o
        · rw [at_o, update_self] at still
          cases still
        · rw [update_of_ne at_o] at still
          exact ⟨at_o, still⟩
      · rw [swap_owner there, update_apply, update_apply] at still
        split_ifs at still with at_p at_o
        · exact absurd (owned.owners.unique o p fd holds still) other
        · exact ⟨at_o, still⟩
  | operate o op =>
    obtain ⟨array, here, rfl⟩ := operate_shape ran
    rw [keepsHandles_operate here]
    rcases op.run_cases array s.log with ⟨use, same⟩ | ⟨notUse, shut, array', empty, same⟩ |
      ⟨notUse, opens, array', handle, same⟩
    · rw [same]
      exact Or.inl ⟨Or.inl use, owned.use here⟩
    · rw [same] at ran ⊢
      by_cases known : array.fdGbp = noFile
      · refine Or.inr ⟨fun keeps => (keeps.resolve_left notUse).1 known, owned.spoilt ran (Or.inl ?_)⟩
        rw [put_log, closing_calls]
        exact owned.closing_noFile known
      · exact Or.inl ⟨Or.inr ⟨known, fun opens => absurd opens shut⟩, owned.close here known empty⟩
    · rw [same] at ran ⊢
      by_cases known : array.fdGbp = noFile
      · refine Or.inr ⟨fun keeps => (keeps.resolve_left notUse).1 known, owned.spoilt ran (Or.inl ?_)⟩
        intro orderly
        have whole : Orderly ([.openFile _] ++ (array.close s.log).2.calls) := orderly
        have earlier := whole.of_append
        rw [closing_calls] at earlier
        exact owned.closing_noFile known earlier
      · by_cases full : s.log.opened = invalidFileHandle
        · refine Or.inr ⟨fun keeps => (keeps.resolve_left notUse).2 opens full, owned.spoilt ran ?_⟩
          right; right
          have next : (array.close s.log).2.opened % 2 ^ 32 = invalidFileHandle := by
            rw [MmapArray.close_opened, full]
            rfl
          change _ ∈ FileCall.openFile ((array.close s.log).2.opened % 2 ^ 32) :: _
          rw [next]
          exact List.mem_cons_self ..
        · refine Or.inl ⟨Or.inr ⟨known, fun _ => full⟩, ?_⟩
          have closed : Owned (s.put o none (array.close s.log).2) := owned.close here known rfl
          have empty : (s.put o none (array.close s.log).2).owner o = none := by
            rw [put_owner, update_self]
            rfl
          have opened : (s.put o none (array.close s.log).2).log.opened = s.log.opened :=
            MmapArray.close_opened
          have both := closed.open empty (opened.symm ▸ full) (opened.symm ▸ handle)
          rw [put_log] at both
          have merge : (s.put o none (array.close s.log).2).put o (some array')
              (array.close s.log).2.openFile.2 = s.put o (some array') (array.close s.log).2.openFile.2 := by
            simp only [put, update_idem]
          rwa [merge] at both

/-- In every run that destroys all objects in the end, the files are closed by their owners if and only if every
call meets its condition. -/
theorem handles_owned_iff (calls : List (ArrayCall O)) {s : Arrays O}
    (ran : calls.foldlM step start = .ok s) (gone : ∀ o, s.arrays o = none) :
    OwnsHandles s.log.calls ↔ Runs.Each step KeepsHandles start calls := by
  rw [ownsHandles_iff]
  have both := Runs.final_good_or_bad (fun _ _ _ owned moved => Owned.step owned moved)
    (fun _ _ _ bad moved => Spoilt.step bad moved) owned_start ran
  rcases both with ⟨each, owned⟩ | ⟨broken, bad⟩
  · refine iff_of_true ⟨owned.orderly, fun fd opened => ?_⟩ each
    by_contra unclosed
    obtain ⟨o, holds⟩ := (owned.owners.held fd).mp ⟨opened, unclosed⟩
    rw [owner, gone o] at holds
    cases holds
  · refine iff_of_false ?_ broken
    rintro ⟨orderly, closed⟩
    rcases bad.spoilt with messy | ⟨_, fd, _, ⟨opened, unclosed⟩, _⟩ | last
    · exact messy orderly
    · exact unclosed (closed fd opened)
    · exact bad.never (closed _ last)

/-- An array opens a file and is moved, used and destroyed. -/
def movedRun : List (ArrayCall Bool) :=
  [.construct false, .operate false (.open "a" false none 8 4096), .move true false, .operate true .use,
    .operate true .destroy, .operate false .destroy]

theorem handles_owned_movedRun : OwnsHandles [.closeFile 0, .use 0, .openFile 0] := by
  refine (handles_owned_iff movedRun rfl (by decide)).mpr ?_
  rintro _ ⟨⟩
  refine ⟨trivial, ?_⟩
  rintro _ ⟨⟩
  refine ⟨⟨by rintro _ ⟨⟩; decide, Or.inr (by decide)⟩, ?_⟩
  rintro _ ⟨⟩
  refine ⟨trivial, ?_⟩
  rintro _ ⟨⟩
  refine ⟨trivial, ?_⟩
  rintro _ ⟨⟩
  refine ⟨by rintro _ ⟨⟩; decide, ?_⟩
  rintro _ ⟨⟩
  exact ⟨by rintro _ ⟨⟩; decide, trivial⟩

/-- The destructor of an array that failed to open a missing file closes the handle -1. -/
theorem handles_not_owned : ¬ ∀ (calls : List (ArrayCall Bool)) (s : Arrays Bool),
    calls.foldlM step start = .ok s → (∀ o, s.arrays o = none) → OwnsHandles s.log.calls := by
  intro all
  have owns := all [.construct false, .operate false (.open "a" true none 8 4096), .operate false .destroy]
    _ rfl (by decide)
  have opened := owns.returned [] [] noFile rfl
  cases opened

end Arrays

end Gbp
