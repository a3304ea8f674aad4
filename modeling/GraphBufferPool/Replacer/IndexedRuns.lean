import GraphBufferPool.Replacer.IndexedAgreement

/-! # Runs of the SIEVE replacer

Any sequence of calls on one `SieveReplacer_v3` object, each sweep in a pool state of its own, with the frames that are
tracked: those inserted and not taken since, the latest in front. As long as the sentinels have indices of
their own the list links just these frames, and what holds of the calls over sequences holds of the runs.
-/

namespace Gbp.Indexed

open Fuel
open PageTable (twoPages twoPages_consistent)
open Gbp.SieveReplacer_v3 (Call Tidy Locked insert_shape promote_shape victim_shape replace_shape tidy_new)

namespace SieveReplacer_v3

/-- A replacer after a run of calls from an empty one, with its tracked frames. Untracked frames are inserted; some pools
also evict with `Replace`. -/
inductive Reached (replaces : Prop) (capacity : ℕ) : SieveReplacer_v3 → List ℕ → Prop
  | new : Reached replaces capacity (new capacity) []
  | insert {r r' : SieveReplacer_v3} {tracked : List ℕ} {m : ℕ} {result : Bool}
      (before : Reached replaces capacity r tracked) (untracked : m ∉ tracked) (ran : r.insert m = .ok (result, r')) :
      Reached replaces capacity r' (m :: tracked)
  | promote {r r' : SieveReplacer_v3} {tracked : List ℕ} {m : ℕ} {result : Bool}
      (before : Reached replaces capacity r tracked) (ran : r.promote m = .ok (result, r')) :
      Reached replaces capacity r' tracked
  | victim {r r' : SieveReplacer_v3} {tracked : List ℕ} {m : ℕ} {pt pt' : PageTable}
      (before : Reached replaces capacity r tracked) (ran : r.victim pt = .ok (some m, r', pt')) :
      Reached replaces capacity r' (tracked.erase m)
  | replace {r r' : SieveReplacer_v3} {tracked : List ℕ} {m fuel : ℕ} {pt pt' : PageTable} (allowed : replaces)
      (before : Reached replaces capacity r tracked) (ran : r.replace fuel pt = .ok (some m, r', pt')) :
      Reached replaces capacity r' (m :: tracked.erase m)

variable {replaces : Prop} {capacity bound m : ℕ} {r : SieveReplacer_v3} {a : Gbp.SieveReplacer_v3} {tracked : List ℕ}
  {pt : PageTable}

/-- What a replacer in use has to do with the sequence of its tracked frames. -/
structure Follows (capacity bound : ℕ) (r : SieveReplacer_v3) (tracked : List ℕ) (a : Gbp.SieveReplacer_v3) : Prop where
  simulates : Simulates r a
  nodes : a.list.nodes = tracked
  size : a.list.capacity = capacity
  tidy : Tidy bound a.list
  hand : a.HandValid

/-- A call of a replacer in use that keeps the hand valid. -/
theorem Follows.call {a' : Gbp.SieveReplacer_v3} {r' : SieveReplacer_v3} {c : Call} {after : List ℕ}
    (follows : Follows capacity bound r tracked a) (simulates : Simulates r' a') (ran : a.call c = .ok a')
    (low : c.mark ≤ bound) (linked : a.ErasesLinked c) (keeps : a.KeepsHand c) (nodes : a'.list.nodes = after) :
    Follows capacity bound r' after a' := by
  obtain ⟨tidy, same, exact⟩ := follows.tidy.call follows.hand low linked ran
  exact ⟨simulates, nodes, same.trans follows.size, tidy, exact.mpr keeps⟩

/-- In every run the list links the tracked frames. -/
theorem Reached.follows (fits : capacity < indexRange - 2) (low : 1 ≤ bound) (high : replaces → 2 ≤ bound)
    (reached : Reached replaces capacity r tracked) : ∃ a, Follows capacity bound r tracked a := by
  induction reached with
  | new => exact ⟨.new capacity, simulates_new fits, rfl, rfl, tidy_new bound capacity, Or.inl rfl⟩
  | insert before untracked ran ih =>
    obtain ⟨a, follows⟩ := ih
    obtain ⟨⟨done, a'⟩, moved, same⟩ := (follows.simulates.insert _).right ran
    have shape := (insert_shape moved).2
    refine ⟨a', follows.call same.2 (c := .insert _) (map_eq_ok.mpr ⟨_, moved, rfl⟩) (Nat.zero_le _) trivial trivial ?_⟩
    cases shape
    change _ :: a.list.nodes.erase _ = _
    rw [follows.nodes, List.erase_of_not_mem untracked]
  | promote before ran ih =>
    obtain ⟨a, follows⟩ := ih
    obtain ⟨⟨done, a'⟩, moved, same⟩ := (follows.simulates.promote _).right ran
    have shape := (promote_shape moved).2
    refine ⟨a', follows.call same.2 (c := .promote _) (map_eq_ok.mpr ⟨_, moved, rfl⟩) low trivial trivial ?_⟩
    cases shape
    exact follows.nodes
  | @victim r r' tracked m pt pt' before ran ih =>
    obtain ⟨a, follows⟩ := ih
    obtain ⟨⟨taken, a', table⟩, moved, rfl, simulates, -⟩ := (follows.simulates.victim pt).right ran
    obtain ⟨j, linked, list, lowered, found, shape⟩ := victim_shape follows.tidy.distinct follows.hand moved
    refine ⟨a', follows.call simulates (c := .victim pt) (map_eq_ok.mpr ⟨_, moved, rfl⟩) (Nat.zero_le _) trivial trivial
      ?_⟩
    obtain rfl : m = j := Option.some.inj found
    have room : ¬ list.capacity ≤ m := by
      rw [lowered.capacity]
      exact Nat.not_le.mpr (follows.tidy.inside m linked)
    rw [show a' = _ from shape, Gbp.ListArray.removeFromIndex, if_neg room]
    change list.nodes.erase m = _
    rw [lowered.nodes, follows.nodes]
  | @replace r r' tracked m fuel pt pt' allowed before ran ih =>
    obtain ⟨a, follows⟩ := ih
    obtain ⟨⟨taken, a', table⟩, moved, rfl, simulates, -⟩ := (follows.simulates.replace fuel pt).right ran
    obtain ⟨j, linked, list, cleared, -, found, shape⟩ := replace_shape follows.tidy.inside follows.hand moved
    refine ⟨a', follows.call simulates (c := .replace fuel pt) (map_eq_ok.mpr ⟨_, moved, rfl⟩) (high allowed) trivial
      trivial ?_⟩
    obtain rfl : m = j := Option.some.inj found
    rw [show a' = _ from shape]
    change m :: list.nodes.erase m = _
    rw [cleared.nodes, follows.nodes]

theorem Follows.wellFormed (follows : Follows capacity bound r tracked a) : r.list.WellFormed tracked :=
  follows.nodes ▸ follows.simulates.list.wellFormed

/-- `Victim` returns within its tries: with an evictable frame that was tracked and no longer is, locked, and with every
other mapping and entry as it was and the other tracked frames in their order. -/
def FindsEvictable (r : SieveReplacer_v3) (tracked : List ℕ) (pt : PageTable) : Prop :=
  ∃ m r' pt', r.victim pt = .ok (some m, r', pt') ∧ pt.Evictable m ∧ m ∈ tracked ∧ r'.list.inList m = false ∧
    r.list.IsList tracked ∧ r'.list.IsList (tracked.erase m) ∧ Locked pt pt' m

/-- In every state of the replacer and every consistent pool with an evictable tracked frame, `Victim` finds one. -/
theorem victim_finds_evictable (fits : capacity < indexRange - 2) (reached : Reached False capacity r tracked)
    (consistent : pt.Consistent tracked) (found : ∃ m ∈ tracked, pt.Evictable m) : FindsEvictable r tracked pt := by
  obtain ⟨a, follows⟩ := reached.follows fits le_rfl False.elim
  have nodes := follows.nodes
  have ready : a.Ready := ⟨follows.tidy.sound, follows.hand⟩
  obtain ⟨m, a', pt', moved, evictable, linked, shape, locked⟩ :=
    ready.victim_locks (nodes.symm ▸ consistent) (nodes.symm ▸ found)
  obtain ⟨⟨taken, r', table⟩, ran, same, -, left⟩ := (follows.simulates.victim pt).left moved
  obtain rfl : taken = some m := same
  obtain rfl : table = pt' := left
  obtain ⟨b, after⟩ := (reached.victim ran).follows fits le_rfl False.elim
  have inside : m < r'.list.capacity := by
    rw [after.simulates.list.size, after.size, ← follows.size]
    exact follows.tidy.inside m linked
  refine ⟨m, r', table, ran, evictable, nodes ▸ linked, ?_, follows.wellFormed.isList, after.wellFormed.isList, locked⟩
  have gone := (after.wellFormed.inList_iff (Nat.lt_add_right 2 inside)).not.mpr follows.wellFormed.nodup.not_mem_erase
  exact Bool.eq_false_iff.mpr gone

/-- The replacer after `Insert` of the first. -/
def oneInserted (capacity : ℕ) : SieveReplacer_v3 :=
  ⟨(((ListArray.new capacity).setValue 0 0).moveToFront 0).2, ListArray.head capacity⟩

/-- The replacer after `Insert` of both. -/
def twoInserted : SieveReplacer_v3 :=
  ⟨(((((ListArray.new 2).setValue 0 0).moveToFront 0).2.setValue 1 0).moveToFront 1).2, 2⟩

theorem twoInserted_reached (replaces : Prop) : Reached replaces 2 twoInserted [1, 0] := by
  have first : Reached replaces 2 _ [0] := .insert .new List.not_mem_nil rfl
  exact first.insert (by decide) rfl

theorem victim_finds_evictable_twoPages : FindsEvictable twoInserted [1, 0] twoPages :=
  victim_finds_evictable (by decide) (twoInserted_reached False) twoPages_consistent ⟨0, by decide, by decide⟩

/-- `Victim` takes the frame it starts from, if that is unmarked and evictable. -/
theorem victim_first (inside : m < r.list.capacity) (start : r.list.start r.pointer = m) (other : m ≠ ListArray.head r.list.capacity)
    (clear : r.list.val m = 0) (evictable : pt.Evictable m) : r.victim pt =
      .ok (some m, ⟨(r.list.removeFromIndex m).2, r.list.getPrevNodeIndex m⟩, pt.lockFrame (pt.ptes m).page m) := by
  have stops : skipMarked r.list m = .ok (m, r.list) := by
    rw [skipMarked, ListArray.skip, if_neg (Nat.not_le.mpr inside), if_pos clear]
  obtain ⟨count, tries⟩ : ∃ count, r.list.capacity * 2 = count + 1 := ⟨r.list.capacity * 2 - 1, by omega⟩
  simp only [victim, start, if_neg other, tries, victimLoop, stops, ok_bind,
    Gbp.SieveReplacer_v3.attempt_takes evictable]
  rfl

/-- With `INVALID_INDEX` for the index of its tail, a list of one frame still links it after `Victim` took it. -/
theorem victim_keeps_frame : ¬ ∀ (capacity : ℕ) (r : SieveReplacer_v3) (tracked : List ℕ) (pt : PageTable),
    Reached False capacity r tracked → pt.Consistent tracked → (∃ m ∈ tracked, pt.Evictable m) →
      FindsEvictable r tracked pt := by
  intro always
  have reached : Reached False (indexRange - 2) (oneInserted (indexRange - 2)) [0] :=
    .insert .new List.not_mem_nil rfl
  obtain ⟨m, r', pt', ran, -, member, -, -, after, -⟩ :=
    always _ _ [0] twoPages reached ⟨by decide, by decide, by decide⟩ ⟨0, by decide, by decide⟩
  obtain rfl := List.mem_singleton.mp member
  have first := @victim_first 0 (oneInserted (indexRange - 2)) twoPages (by decide) (by decide) (by decide) (by decide)
    (by decide)
  cases first.symm.trans ran
  exact absurd after.forward (by decide)

/-- The linked frames are those of the sequence. -/
theorem Simulates.linked_iff (simulates : Simulates r a) :
    m < r.list.capacity ∧ r.list.inList m = true ↔ m ∈ a.list.nodes := by
  rw [simulates.list.size]
  constructor
  · rintro ⟨inside, linked⟩
    rw [simulates.list.inList (Nat.lt_add_right 2 inside)] at linked
    exact of_decide_eq_true linked
  · intro linked
    have inside := simulates.list.inside linked
    refine ⟨inside, ?_⟩
    rw [simulates.list.inList (Nat.lt_add_right 2 inside)]
    exact decide_eq_true linked

/-- The hand stands at the head sentinel or on a linked node. -/
def HandValid (r : SieveReplacer_v3) : Prop :=
  r.pointer = ListArray.head r.list.capacity ∨ r.pointer < r.list.capacity ∧ r.list.inList r.pointer = true

theorem Simulates.handValid_iff (simulates : Simulates r a) : r.HandValid ↔ a.HandValid := by
  have front := simulates.pointer.eq_head_iff simulates.list.fits
  rw [HandValid, Gbp.SieveReplacer_v3.HandValid, simulates.linked_iff, simulates.list.size, front]
  refine or_congr Iff.rfl ⟨fun linked => ?_, ?_⟩
  · have inside := simulates.list.inside linked
    obtain ⟨i, here⟩ : ∃ i, a.pointer = .node i := by
      simpa using (simulates.pointer.le_iff simulates.list.fits).not.mp (Nat.not_le.mpr inside)
    have index := simulates.pointer.index
    rw [here] at index
    obtain rfl : r.pointer = i := index
    exact ⟨r.pointer, linked, here⟩
  · rintro ⟨i, linked, here⟩
    have index := simulates.pointer.index
    rw [here] at index
    obtain rfl : r.pointer = i := index
    exact linked

/-- The hand is valid, and whatever the pool looks like the next `Victim` indexes only nodes and takes a linked frame if
it takes one. -/
def SweepsLinked (r : SieveReplacer_v3) : Prop :=
  HandValid r ∧ ∀ pt, r.victim pt ≠ .error .badIndex ∧ ∀ result, r.victim pt = .ok result →
    ∃ m, (m < r.list.capacity ∧ r.list.inList m = true) ∧ result.1 = some m

theorem Simulates.sweepsLinked_iff (simulates : Simulates r a) : r.SweepsLinked ↔ a.SweepsLinked := by
  refine and_congr simulates.handValid_iff (forall_congr' fun pt => ?_)
  have agree := simulates.victim pt
  refine and_congr (agree.error_iff .badIndex).not ⟨fun takes result moved => ?_, fun takes result ran => ?_⟩
  · obtain ⟨result', ran, same, -⟩ := agree.left moved
    obtain ⟨m, linked, taken⟩ := takes result' ran
    exact ⟨m, simulates.linked_iff.mp linked, same.symm.trans taken⟩
  · obtain ⟨result', moved, same, -⟩ := agree.right ran
    obtain ⟨m, linked, taken⟩ := takes result' moved
    exact ⟨m, simulates.linked_iff.mpr linked, same.trans taken⟩

/-- A call of `Erase` names a linked frame. -/
def ErasesLinked (r : SieveReplacer_v3) : Call → Prop
  | .erase m => m < r.list.capacity ∧ r.list.inList m = true
  | _ => True

/-- What a call needs to keep the hand valid: `Clean` finds it at the head sentinel, and `Erase` not on the node it
unlinks. -/
def KeepsHand (r : SieveReplacer_v3) : Call → Prop
  | .clean => r.pointer = ListArray.head r.list.capacity
  | .erase m => r.pointer ≠ m
  | _ => True

theorem Simulates.erasesLinked_iff (simulates : Simulates r a) (c : Call) : r.ErasesLinked c ↔ a.ErasesLinked c := by
  cases c with
  | erase m => exact simulates.linked_iff
  | _ => exact Iff.rfl

theorem Simulates.keepsHand_iff (simulates : Simulates r a) {c : Call} (linked : r.ErasesLinked c) :
    r.KeepsHand c ↔ a.KeepsHand c := by
  have index := simulates.pointer.index
  cases c with
  | clean =>
    have front := simulates.pointer.eq_head_iff simulates.list.fits
    rwa [← simulates.list.size] at front
  | erase m =>
    refine not_congr ⟨fun here => ?_, fun here => ?_⟩
    · have inside : r.pointer < a.list.capacity := here ▸ simulates.list.size ▸ linked.1
      obtain ⟨i, named⟩ : ∃ i, a.pointer = .node i := by
        simpa using (simulates.pointer.le_iff simulates.list.fits).not.mp (Nat.not_le.mpr inside)
      rw [named] at index
      rw [named, ← here]
      exact congrArg ListIndex.node index.symm
    · rw [here] at index
      exact index
  | _ => exact Iff.rfl

/-- In every run of the replacer the sweeps stay on linked nodes throughout if and only if every `Clean` finds the hand
at the head sentinel and every `Erase` finds it off the node it unlinks. -/
theorem hand_valid_iff (fits : capacity < indexRange - 2) (calls : List Call)
    (linked : Runs.Each call ErasesLinked (new capacity) calls) :
    Runs.Always call SweepsLinked (new capacity) calls ↔ Runs.Each call KeepsHand (new capacity) calls := by
  have related := simulates_new fits
  have steps (r : SieveReplacer_v3) (a : Gbp.SieveReplacer_v3) (c : Call) (simulates : Simulates r a) :=
    simulates.call c
  have erases : Runs.Each call ErasesLinked (new capacity) calls ↔ _ :=
    Runs.each_congr steps (fun r a c simulates _ => simulates.erasesLinked_iff c) related
      (Runs.each_of_forall fun _ _ => trivial)
  have keeps : Runs.Each call KeepsHand (new capacity) calls ↔ _ :=
    Runs.each_congr steps (fun r a c simulates linked => simulates.keepsHand_iff linked) related linked
  rw [Runs.always_congr steps (fun r a simulates => simulates.sweepsLinked_iff) related, keeps]
  exact Gbp.SieveReplacer_v3.always_sweepsLinked_iff capacity calls (erases.mp linked)

theorem hand_valid_iff_clean :
    Runs.Always call SweepsLinked (new 2) [.insert 0, .clean, .insert 1, .erase 1] ↔
      Runs.Each call KeepsHand (new 2) [.insert 0, .clean, .insert 1, .erase 1] :=
  hand_valid_iff (by decide) _ (by
    rintro _ ⟨⟩
    refine ⟨trivial, ?_⟩
    rintro _ ⟨⟩
    refine ⟨trivial, ?_⟩
    rintro _ ⟨⟩
    refine ⟨trivial, ?_⟩
    rintro _ ⟨⟩
    exact ⟨⟨by decide, by decide⟩, trivial⟩)

/-- After a `Victim` the hand stands on frame 1. `Clean` and `Erase` leave it there, and the `Victim` after that `Erase`
takes the erased frame. -/
theorem hand_left_behind : ∃ r cleaned erased,
    [.insert 0, .insert 1, .victim twoPages].foldlM call (new 2) = .ok r ∧ r.list.inList 1 = true ∧
      HandValid r ∧ r.call .clean = .ok cleaned ∧ ¬ HandValid cleaned ∧
        r.call (.erase 1) = .ok erased ∧ ¬ HandValid erased ∧ erased.list.IsList [] ∧
          (erased.victim twoPages).map (·.1) = .ok (some 1) := by
  refine ⟨_, _, _, rfl, ?_, ?_, rfl, ?_, rfl, ?_, ?_, ?_⟩
  · decide
  · exact Or.inr ⟨by decide, by decide⟩
  · rintro (head | ⟨-, linked⟩)
    · exact absurd head (by decide)
    · exact absurd linked (by decide)
  · rintro (head | ⟨-, linked⟩)
    · exact absurd head (by decide)
    · exact absurd linked (by decide)
  · exact ⟨by decide, by decide, List.nodup_nil, by decide⟩
  · rfl

private theorem skip_stable (lower : ℕ → ℕ) (list : ListArray ℕ) (toEvict : ℕ) :
    Stable fun fuel => list.skip lower fuel toEvict := by
  intro fuel result ran
  induction fuel generalizing list toEvict with
  | zero =>
    change list.skip lower 0 toEvict = _ at ran
    change list.skip lower (0 + 1) toEvict = _
    rw [ListArray.skip] at ran
    rw [ListArray.skip]
    split_ifs at ran ⊢ with past clear
    exact ran
  | succ fuel ih =>
    change list.skip lower (fuel + 1) toEvict = _ at ran
    change list.skip lower (fuel + 1 + 1) toEvict = _
    rw [ListArray.skip] at ran
    rw [ListArray.skip]
    split_ifs at ran ⊢ with past clear
    · exact ran
    · exact ih _ _ ran

private theorem replaceLoop_stable (pt : PageTable) (count : ℕ) (list : ListArray ℕ) (toEvict : ℕ) :
    Stable fun fuel => replaceLoop fuel pt count list toEvict := by
  induction count generalizing pt list toEvict with
  | zero => exact .const _
  | succ count ih =>
    refine (skip_stable _ list toEvict).bind fun (i, list) => (Stable.const _).bind ?_
    rintro ⟨taken, table⟩
    cases taken with
    | true => exact .const _
    | false => exact ih table list _

/-- More fuel never changes what `Replace` returns. -/
theorem replace_stable (r : SieveReplacer_v3) (pt : PageTable) : Stable fun fuel => r.replace fuel pt := by
  unfold replace
  dsimp only
  split_ifs
  · exact .const _
  · exact (replaceLoop_stable pt _ r.list _).bind fun _ => .const _

/-- In every state of the replacer and every consistent pool, `Replace` returns, with an evictable frame moved to the
front and the others in their order, if and only if some evictable tracked frame has a value below 2. -/
theorem replace_returns_iff (fits : capacity < indexRange - 2) (reached : Reached True capacity r tracked)
    (consistent : pt.Consistent tracked) :
    (∃ m r' pt', Returns (fun fuel => r.replace fuel pt) (some m, r', pt') ∧ pt.Evictable m ∧ m ∈ tracked ∧
      r'.list.IsList (m :: tracked.erase m)) ↔ ∃ m ∈ tracked, pt.Evictable m ∧ r.list.val m < 2 := by
  obtain ⟨a, follows⟩ := reached.follows fits (Nat.le_succ 1) fun _ => le_rfl
  have nodes := follows.nodes
  have inOrder : pt.Consistent a.list.nodes := nodes.symm ▸ consistent
  have exact := follows.tidy.replace_iff follows.hand inOrder
  rw [nodes, ← follows.simulates.list.val] at exact
  rw [← exact]
  constructor
  · rintro ⟨m, r', pt', ⟨n, returned⟩, evictable, linked, -⟩
    obtain ⟨⟨taken, a', table⟩, moved, rfl, -, rfl⟩ := (follows.simulates.replace n pt).right (returned n le_rfl)
    obtain ⟨j, -, list, cleared, -, found, shape⟩ := Gbp.SieveReplacer_v3.replace_shape follows.tidy.inside follows.hand
      moved
    obtain rfl : m = j := Option.some.inj found
    refine ⟨m, a', pt', (Gbp.SieveReplacer_v3.replace_stable a pt).returns moved, evictable, linked, ?_⟩
    rw [show a' = _ from shape]
    change m :: list.nodes.erase m = _
    rw [cleared.nodes, nodes]
  · rintro ⟨m, a', pt', ⟨n, returned⟩, evictable, linked, shape⟩
    obtain ⟨⟨taken, r', table⟩, ran, same, simulates, left⟩ :=
      (follows.simulates.replace n pt).left (returned n le_rfl)
    obtain rfl : taken = some m := same
    obtain rfl : table = pt' := left
    have wellFormed := simulates.list.wellFormed
    rw [shape] at wellFormed
    exact ⟨m, r', table, (replace_stable r pt).returns ran, evictable, linked, wellFormed.isList⟩

theorem replace_returns_iff_twoPages :
    (∃ m r' pt', Returns (fun fuel => twoInserted.replace fuel twoPages) (some m, r', pt') ∧ twoPages.Evictable m ∧
      m ∈ [1, 0] ∧ r'.list.IsList (m :: [1, 0].erase m)) ↔
        ∃ m ∈ [1, 0], twoPages.Evictable m ∧ twoInserted.list.val m < 2 :=
  replace_returns_iff (by decide) (twoInserted_reached True) twoPages_consistent

/-- A pool of one frame: its only frame is inserted and taken by a first `Replace`. Loaded again and unpinned it is
evictable, but the next `Replace` never ends. -/
theorem second_replace_never_ends : ∃ r, Reached True 1 r [0] ∧ twoPages.Consistent [0] ∧
    (∃ m ∈ [0], twoPages.Evictable m) ∧ ∀ fuel, r.replace fuel twoPages = .error .outOfFuel := by
  have inserted : Reached True 1 _ [0] := .insert .new List.not_mem_nil rfl
  have replaced : Reached True 1 _ [0] := @Reached.replace _ _ _ _ _ 0 2 twoPages _ trivial inserted rfl
  obtain ⟨a, follows⟩ := replaced.follows (by decide) (Nat.le_succ 1) fun _ => le_rfl
  refine ⟨_, replaced, ⟨by decide, by decide, by decide⟩, ⟨0, by decide, by decide⟩, fun fuel => ?_⟩
  have never := @Gbp.SieveReplacer_v3.replace_never _ twoPages follows.hand
  rw [follows.nodes, follows.size, ← follows.simulates.list.val] at never
  exact ((follows.simulates.replace fuel twoPages).error_iff _).mpr (never (by decide) (by decide) (by decide) fuel)

end SieveReplacer_v3

end Gbp.Indexed
