import GraphBufferPool.Lib.Runs
import GraphBufferPool.Replacer.SieveReplace

/-! # Calls of the SIEVE replacer

What a call of the SIEVE replacer over sequences can do is said once, whatever the pool looks like: the linked frames
stay distinct frames of the pool, and the hand stays valid wherever `Erase` and `Clean` do not take the node
under it. In consistent pools `Victim` and `Replace` find what they look for.
-/

namespace Gbp.SieveReplacer_v3

open Fuel

/-- A call on the replacer, a sweep with the page table it finds. -/
inductive Call
  | insert (m : ℕ)
  | promote (m : ℕ)
  | victim (pt : PageTable)
  | replace (fuel : ℕ) (pt : PageTable)
  | erase (m : ℕ)
  | clean

/-- The replacer after a call. -/
def call (r : SieveReplacer_v3) : Call → Except Stop SieveReplacer_v3
  | .insert m => do return (← r.insert m).2
  | .promote m => do return (← r.promote m).2
  | .victim pt => do return (← r.victim pt).2.1
  | .replace fuel pt => do return (← r.replace fuel pt).2.1
  | .erase m => .ok (r.erase m).2
  | .clean => .ok r.clean.2

/-- The linked frames are frames of the pool, once each, with values up to a bound. -/
structure Tidy (bound : ℕ) (list : ListArray) : Prop where
  distinct : list.nodes.Nodup
  inside : ∀ i ∈ list.nodes, i < list.capacity
  marked : ∀ i ∈ list.nodes, list.val i ≤ bound

variable {r r' : SieveReplacer_v3} {pt : PageTable} {bound m : ℕ}

theorem tidy_new (bound capacity : ℕ) : Tidy bound (new capacity).list :=
  ⟨List.nodup_nil, nofun, nofun⟩

theorem Tidy.sound (tidy : Tidy 1 r.list) : Sound r.list := ⟨tidy.distinct, tidy.inside, tidy.marked⟩

theorem Tidy.lowered {list list' : ListArray} (tidy : Tidy bound list) (lowered : Lowered list list') :
    Tidy bound list' where
  distinct := lowered.nodes ▸ tidy.distinct
  inside := by
    rw [lowered.nodes, lowered.capacity]
    exact tidy.inside
  marked := by
    rw [lowered.nodes]
    exact fun i linked => (lowered.val i).trans (tidy.marked i linked)

theorem Tidy.erase {list : ListArray} (tidy : Tidy bound list) (m : ℕ) :
    Tidy bound (list.removeFromIndex m) := by
  unfold ListArray.removeFromIndex
  split_ifs
  · exact tidy
  · exact ⟨tidy.distinct.erase m, fun i linked => tidy.inside i (List.mem_of_mem_erase linked),
      fun i linked => tidy.marked i (List.mem_of_mem_erase linked)⟩

theorem Tidy.setValue {list : ListArray} (tidy : Tidy bound list) (m : ℕ) {value : ℕ}
    (small : value ≤ bound) : Tidy bound (list.setValue m value) := by
  refine ⟨tidy.distinct, tidy.inside, fun i linked => ?_⟩
  simp only [ListArray.setValue, Function.update_apply]
  split_ifs
  · exact small
  · exact tidy.marked i linked

theorem Tidy.front {list : ListArray} (tidy : Tidy bound list) {m : ℕ} (inside : m < list.capacity)
    (small : list.val m ≤ bound) : Tidy bound { list with nodes := m :: list.nodes.erase m } := by
  constructor
  · exact List.nodup_cons.mpr ⟨tidy.distinct.not_mem_erase, tidy.distinct.erase m⟩
  · intro i linked
    rcases List.mem_cons.mp linked with rfl | earlier
    · exact inside
    · exact tidy.inside i (List.mem_of_mem_erase earlier)
  · intro i linked
    rcases List.mem_cons.mp linked with rfl | earlier
    · exact small
    · exact tidy.marked i (List.mem_of_mem_erase earlier)

/-- What `Insert` does where it returns. -/
theorem insert_shape {result : Bool × SieveReplacer_v3} (ran : r.insert m = .ok result) :
    m < r.list.capacity ∧ result = (true, { r with
      list := { r.list.setValue m 0 with nodes := m :: r.list.nodes.erase m } }) := by
  rcases Nat.lt_or_ge m r.list.capacity with inside | past
  · rw [insert_eq inside] at ran
    exact ⟨inside, (Except.ok.inj ran).symm⟩
  · simp only [insert, past, if_true] at ran
    cases ran

/-- What `Promote` does where it returns. -/
theorem promote_shape {result : Bool × SieveReplacer_v3} (ran : r.promote m = .ok result) :
    m < r.list.capacity ∧ result = (true, { r with list := r.list.setValue m 1 }) := by
  rcases Nat.lt_or_ge m r.list.capacity with inside | past
  · rw [promote_eq inside] at ran
    exact ⟨inside, (Except.ok.inj ran).symm⟩
  · simp only [promote, past, if_true] at ran
    cases ran

/-- What `Victim` does where it returns: it unlinks a linked frame and leaves the hand before it. -/
theorem victim_shape (distinct : r.list.nodes.Nodup) (hand : HandValid r)
    {result : Option ℕ × SieveReplacer_v3 × PageTable} (ran : r.victim pt = .ok result) :
    ∃ j ∈ r.list.nodes, ∃ list, Lowered r.list list ∧ result.1 = some j ∧
      result.2.1 = ⟨list.removeFromIndex j, list.getPrevNodeIndex j⟩ := by
  simp only [victim] at ran
  rcases hand.start with ⟨head, _⟩ | ⟨i, linked, start⟩
  · rw [if_pos head] at ran
    cases ran
  · rw [if_neg (by simp [start]), start] at ran
    obtain ⟨⟨j, list, table⟩, swept, result⟩ := bind_eq_ok.mp ran
    cases result
    obtain ⟨lowered, member⟩ := victimLoop_linked distinct linked swept
    exact ⟨j, member, list, lowered, rfl, rfl⟩

/-- What `Replace` does where it returns: it moves a linked frame to the front and marks it. -/
theorem replace_shape (inside : ∀ i ∈ r.list.nodes, i < r.list.capacity) (hand : HandValid r)
    {fuel : ℕ} {result : Option ℕ × SieveReplacer_v3 × PageTable}
    (ran : r.replace fuel pt = .ok result) : ∃ j ∈ r.list.nodes, ∃ list, Cleared r.list list ∧
      list.val j = 0 ∧ result.1 = some j ∧
        result.2.1 = ⟨{ list.setValue j 2 with nodes := j :: list.nodes.erase j },
          list.getPrevNodeIndex j⟩ := by
  simp only [replace] at ran
  rcases hand.start with ⟨head, _⟩ | ⟨i, linked, start⟩
  · rw [if_pos head] at ran
    cases ran
  · rw [if_neg (by simp [start]), start] at ran
    obtain ⟨⟨j, list, table⟩, swept, result⟩ := bind_eq_ok.mp ran
    obtain ⟨cleared, member, zero⟩ := replaceLoop_linked linked swept
    have bound : ¬ (list.setValue j 2).capacity ≤ j := by
      have := inside j member
      rw [← cleared.capacity] at this
      simp only [ListArray.setValue]
      omega
    simp only [ListArray.moveToFront, bound, if_false] at result
    cases result
    exact ⟨j, member, list, cleared, zero, rfl, rfl⟩

/-- Where the node before a linked one is once that one is unlinked. -/
theorem prev_after_erase {list : ListArray} {j : ℕ} (distinct : list.nodes.Nodup)
    (linked : j ∈ list.nodes) : list.getPrevNodeIndex j = .head ∨
      ∃ i ∈ list.nodes.erase j, list.getPrevNodeIndex j = .node i := by
  cases prev : list.getPrevNodeIndex j with
  | head => exact Or.inl rfl
  | node i => exact Or.inr ⟨i, ListArray.getPrevNodeIndex_mem_erase distinct prev, rfl⟩
  | invalid => exact absurd prev (ListArray.getPrevNodeIndex_ne_invalid linked)

/-- What a call needs to keep the hand valid: `Clean` finds it at the head sentinel, and `Erase` not
on the node it unlinks. -/
def KeepsHand (r : SieveReplacer_v3) : Call → Prop
  | .clean => r.pointer = .head
  | .erase m => r.pointer ≠ .node m
  | _ => True

/-- The largest value a call stores. -/
def Call.mark : Call → ℕ
  | .promote _ => 1
  | .replace _ _ => 2
  | _ => 0

/-- A call of `Erase` names a linked frame. -/
def ErasesLinked (r : SieveReplacer_v3) : Call → Prop
  | .erase m => m ∈ r.list.nodes
  | _ => True

theorem mem_front {nodes : List ℕ} {m i : ℕ} (linked : i ∈ nodes) : i ∈ m :: nodes.erase m := by
  rw [List.mem_cons]
  by_cases here : i = m
  · exact Or.inl here
  · exact Or.inr ((List.mem_erase_of_ne here).mpr linked)

/-- One call keeps the list tidy, and the hand valid exactly where it meets its condition. -/
theorem Tidy.call {c : Call} (tidy : Tidy bound r.list) (hand : HandValid r) (low : c.mark ≤ bound)
    (linked : ErasesLinked r c) (ran : r.call c = .ok r') :
    Tidy bound r'.list ∧ r'.list.capacity = r.list.capacity ∧ (HandValid r' ↔ KeepsHand r c) := by
  cases c with
  | insert m =>
    obtain ⟨result, inserted, rfl⟩ := map_eq_ok.mp ran
    obtain ⟨inside, rfl⟩ := insert_shape inserted
    refine ⟨(tidy.setValue m (Nat.zero_le _)).front inside ?_, rfl, iff_of_true ?_ trivial⟩
    · simp [ListArray.setValue]
    · exact hand.imp_right (Exists.imp fun _ => And.imp_left mem_front)
  | promote m =>
    obtain ⟨result, promoted, rfl⟩ := map_eq_ok.mp ran
    obtain ⟨inside, rfl⟩ := promote_shape promoted
    exact ⟨tidy.setValue m low, rfl, iff_of_true hand trivial⟩
  | victim pt =>
    obtain ⟨result, swept, rfl⟩ := map_eq_ok.mp ran
    obtain ⟨j, member, list, lowered, _, after⟩ := victim_shape tidy.distinct hand swept
    have tidy' := tidy.lowered lowered
    have inside := tidy.inside j member
    have removed : list.removeFromIndex j = { list with nodes := list.nodes.erase j } := by
      rw [ListArray.removeFromIndex, if_neg (by rw [lowered.capacity]; omega)]
    rw [after]
    refine ⟨tidy'.erase j, ?_, iff_of_true ?_ trivial⟩
    · rw [removed]
      exact lowered.capacity
    · rw [removed]
      exact prev_after_erase tidy'.distinct (lowered.nodes ▸ member)
  | replace fuel pt =>
    obtain ⟨result, swept, rfl⟩ := map_eq_ok.mp ran
    obtain ⟨j, member, list, cleared, _, _, after⟩ := replace_shape tidy.inside hand swept
    have tidy' := tidy.lowered cleared.toLowered
    have inside := tidy.inside j member
    rw [after]
    refine ⟨(tidy'.setValue j low).front ?_ ?_, cleared.capacity, iff_of_true ?_ trivial⟩
    · rw [← cleared.capacity] at inside
      exact inside
    · simpa [ListArray.setValue] using low
    · rcases prev_after_erase tidy'.distinct (cleared.nodes.symm ▸ member) with head | ⟨i, later, prev⟩
      · exact Or.inl head
      · exact Or.inr ⟨i, List.mem_cons_of_mem _ later, prev⟩
  | erase m =>
    cases ran
    refine ⟨tidy.erase m, ?_, ?_⟩
    · simp only [SieveReplacer_v3.erase, ListArray.removeFromIndex]
      split_ifs <;> rfl
    · have inside := tidy.inside m linked
      simp only [SieveReplacer_v3.erase, ListArray.removeFromIndex, if_neg (Nat.not_le.mpr inside),
        HandValid, KeepsHand]
      constructor
      · rintro (head | ⟨i, later, here⟩) onto
        · rw [head] at onto
          cases onto
        · cases here.symm.trans onto
          exact tidy.distinct.not_mem_erase later
      · intro away
        refine hand.imp_right ?_
        rintro ⟨i, earlier, here⟩
        exact ⟨i, (List.mem_erase_of_ne (by rintro rfl; exact away here)).mpr earlier, here⟩
  | clean =>
    cases ran
    refine ⟨⟨List.nodup_nil, by simp [SieveReplacer_v3.clean, ListArray.clean, ListArray.new],
      by simp [SieveReplacer_v3.clean, ListArray.clean, ListArray.new]⟩, rfl, ?_⟩
    simp [SieveReplacer_v3.clean, ListArray.clean, ListArray.new, HandValid, KeepsHand]

private theorem attempt_ne_badIndex (i : ℕ) : attempt pt i ≠ .error .badIndex := by
  unfold attempt PageTable.lockVictim
  split_ifs
  · exact nofun
  · apply bind_ne_error PageTable.lockMapping_ne_badIndex
    rintro ⟨locked, table⟩ _
    cases locked with
    | none => exact nofun
    | some value =>
      dsimp only
      split_ifs
      · exact nofun
      · apply bind_ne_error (PageTable.unLockMapping_ne_badIndex _)
        rintro ⟨unlocked, restored⟩ _
        cases unlocked <;> exact nofun

private theorem victimLoop_ne_badIndex {count : ℕ} {list : ListArray} {i : ℕ}
    (distinct : list.nodes.Nodup) (linked : i ∈ list.nodes) :
    victimLoop pt count list (.node i) ≠ .error .badIndex := by
  induction count generalizing pt list i with
  | zero => exact nofun
  | succ count ih =>
    obtain ⟨k, middle, skipped, lowered, member, _⟩ :=
      exists_skipMarked distinct linked (Nat.le_succ list.marks)
    rw [victimLoop_succ, skipped, ok_bind]
    apply bind_ne_error (attempt_ne_badIndex k)
    rintro ⟨taken, table⟩ _
    cases taken with
    | true => exact nofun
    | false =>
      obtain ⟨next, later, moved⟩ := ListArray.exists_sweepFrom (lowered.nodes ▸ member)
      dsimp only
      rw [if_neg (by simp), moved]
      exact ih (lowered.nodes ▸ distinct) later

/-- The hand is valid, and whatever the pool looks like the next `Victim` indexes only nodes and takes
a linked frame if it takes one. -/
def SweepsLinked (r : SieveReplacer_v3) : Prop :=
  HandValid r ∧ ∀ pt, r.victim pt ≠ .error .badIndex ∧
    ∀ result, r.victim pt = .ok result → ∃ m ∈ r.list.nodes, result.1 = some m

theorem HandValid.sweepsLinked (hand : HandValid r) (distinct : r.list.nodes.Nodup) :
    SweepsLinked r := by
  refine ⟨hand, fun pt => ⟨?_, fun result ran => ?_⟩⟩
  · simp only [victim]
    rcases hand.start with ⟨head, _⟩ | ⟨i, linked, start⟩
    · rw [if_pos head]
      rintro ⟨⟩
    · rw [if_neg (by simp [start]), start]
      apply bind_ne_error (victimLoop_ne_badIndex distinct linked)
      rintro _ _ ⟨⟩
  · obtain ⟨j, member, _, _, taken, _⟩ := victim_shape distinct hand ran
    exact ⟨j, member, taken⟩

/-- The sweeps of a run stay on linked nodes throughout if and only if every `Clean` finds the hand at the head
sentinel and every `Erase` finds it off the node it unlinks. -/
theorem always_sweepsLinked_iff (capacity : ℕ) (calls : List Call)
    (linked : Runs.Each call ErasesLinked (new capacity) calls) :
    Runs.Always call SweepsLinked (new capacity) calls ↔
      Runs.Each call KeepsHand (new capacity) calls := by
  refine Runs.always_iff_each (fun r c r' (tidy : Tidy 2 r.list) sweeps erases ran => ?_)
    (tidy_new 2 capacity) ?_ linked
  · have low : c.mark ≤ 2 := by cases c <;> simp [Call.mark]
    obtain ⟨tidy', _, exact⟩ := tidy.call sweeps.1 low erases ran
    exact ⟨tidy', ⟨fun sweeps' => exact.mp sweeps'.1, fun keeps =>
      (exact.mpr keeps).sweepsLinked tidy'.distinct⟩⟩
  · exact HandValid.sweepsLinked (Or.inl rfl) List.nodup_nil

/-- What locking frame `m` for its eviction changes: the mapping of its page is BUSY and its entry
busy, and nothing else. -/
structure Locked (pt pt' : PageTable) (m : ℕ) : Prop where
  mapping : pt'.word? (pt.ptes m).page = some .busy
  busy : (pt'.ptes m).busy = true
  unpinned : (pt'.ptes m).refCount = 0
  entries : ∀ k, k ≠ m → pt'.ptes k = pt.ptes k
  mappings : ∀ page, ¬ pt.SameSlot (pt.ptes m).page page → pt'.word? page = pt.word? page

theorem locked_lockFrame (evictable : pt.Evictable m) :
    Locked pt (pt.lockFrame (pt.ptes m).page m) m where
  mapping := PageTable.setWord_word?_self evictable.1
  busy := by simp [PageTable.lockFrame]
  unpinned := by simp [PageTable.lockFrame, evictable.2.2]
  entries _ other := Function.update_of_ne other ..
  mappings _ apart := PageTable.setWord_word?_of_not apart

/-- In a consistent pool with an evictable tracked frame, `Victim` returns within its tries: with an evictable frame
that was tracked and no longer is, locked, and with every other mapping, entry and tracked frame as it was. -/
theorem Ready.victim_locks (ready : Ready r) (consistent : pt.Consistent r.list.nodes)
    (found : ∃ m ∈ r.list.nodes, pt.Evictable m) :
    ∃ m r' pt', r.victim pt = .ok (some m, r', pt') ∧ pt.Evictable m ∧ m ∈ r.list.nodes ∧
      r'.list.nodes = r.list.nodes.erase m ∧ Locked pt pt' m := by
  have answers : ∀ k ∈ r.list.nodes, pt.Answers k := fun k linked => consistent.answers linked
  have registered : ∀ k ∈ r.list.nodes, pt.word? (pt.ptes k).page ≠ none := by
    intro k linked gone
    rcases consistent.mapped k linked with here | busy
    · rw [gone] at here
      cases here
    · rw [gone] at busy
      cases busy
  obtain ⟨m, r', pt', ran⟩ := ready.victim_complete answers registered found
  obtain ⟨member, evictable, locked, _, nodes, _⟩ := ready.victim_sound answers ran
  subst locked
  exact ⟨m, r', _, ran, evictable, member, nodes, locked_lockFrame evictable⟩

/-- In a consistent pool with an evictable frame of value below 2, `Replace` needs no more than twice
the capacity of tries and of inner rounds. -/
theorem exists_replace (tidy : Tidy 2 r.list) (hand : HandValid r)
    (consistent : pt.Consistent r.list.nodes) {target : ℕ} (member : target ∈ r.list.nodes)
    (evictable : pt.Evictable target) (low : r.list.val target < 2) :
    ∃ result, r.replace (r.list.capacity * 2) pt = .ok result := by
  rcases hand.start with ⟨_, empty⟩ | ⟨i, linked, start⟩
  · simp [empty] at member
  · have fits : r.list.nodes.length ≤ r.list.capacity := by
      have within : r.list.nodes ⊆ List.range r.list.capacity :=
        fun i linked => List.mem_range.mpr (tidy.inside i linked)
      simpa using (tidy.distinct.subperm within).length_le
    have enough : closeness r.list target i < r.list.capacity * 2 := by
      have near := ListArray.distance_lt target linked
      have once := Nat.mul_le_mul_left r.list.nodes.length (Nat.le_of_lt_succ low)
      unfold closeness
      omega
    obtain ⟨⟨j, list, table⟩, swept⟩ := exists_replaceLoop tidy.distinct consistent linked member
      evictable (Nat.le_of_lt_succ low) enough le_rfl
    obtain ⟨cleared, here, _⟩ := replaceLoop_linked linked swept
    have bound : ¬ (list.setValue j 2).capacity ≤ j := by
      have := tidy.inside j here
      rw [← cleared.capacity] at this
      simp only [ListArray.setValue]
      omega
    simp only [replace, start]
    rw [if_neg (by simp), swept, ok_bind]
    simp only [ListArray.moveToFront, bound, if_false]
    exact ⟨_, rfl⟩

/-- In a consistent pool what `Replace` returns is evictable. -/
theorem replace_evictable (hand : HandValid r) (consistent : pt.Consistent r.list.nodes) {fuel : ℕ}
    {result : Option ℕ × SieveReplacer_v3 × PageTable} (ran : r.replace fuel pt = .ok result)
    (taken : result.1 = some m) : pt.Evictable m := by
  simp only [replace] at ran
  rcases hand.start with ⟨head, _⟩ | ⟨i, linked, start⟩
  · rw [if_pos head] at ran
    cases ran
  · rw [if_neg (by simp [start]), start] at ran
    obtain ⟨⟨j, list, table⟩, swept, ran⟩ := bind_eq_ok.mp ran
    obtain ⟨_, _, ran⟩ := bind_eq_ok.mp ran
    cases ran
    cases taken
    exact (replaceLoop_sound consistent linked swept).1

/-- The inner loop of `Replace` never ends on a list where every value is at least 2. -/
theorem skipReplaced_never {list : ListArray} {i : ℕ} (linked : i ∈ list.nodes)
    (high : ∀ k ∈ list.nodes, 1 < list.val k) (fuel : ℕ) :
    skipReplaced fuel list (.node i) = .error .outOfFuel := by
  induction fuel generalizing i with
  | zero =>
    have := high i linked
    rw [skipReplaced, if_neg (by omega)]
  | succ fuel ih =>
    have here := high i linked
    have same : cleared list i = list := if_neg (by omega)
    obtain ⟨next, later, moved⟩ := ListArray.exists_sweepFrom linked
    rw [skipReplaced, if_neg (by omega), same, moved]
    exact ih later

/-- With every frame marked by `Replace`, the next `Replace` never ends, whatever the pool. -/
theorem replace_never (hand : HandValid r) (tracked : r.list.nodes ≠ []) (positive : 0 < r.list.capacity)
    (high : ∀ k ∈ r.list.nodes, 1 < r.list.val k) (fuel : ℕ) :
    r.replace fuel pt = .error .outOfFuel := by
  rcases hand.start with ⟨_, empty⟩ | ⟨i, linked, start⟩
  · exact absurd empty tracked
  · obtain ⟨count, tries⟩ : ∃ count, r.list.capacity * 2 = count + 1 :=
      ⟨r.list.capacity * 2 - 1, by omega⟩
    simp only [replace, start]
    rw [if_neg nofun, tries, replaceLoop, skipReplaced_never linked high fuel]
    rfl

/-- In a consistent pool `Replace` returns, with an evictable frame moved to the front and the others in their order, if
and only if some evictable tracked frame has a value below 2. -/
theorem Tidy.replace_iff (tidy : Tidy 2 r.list) (hand : HandValid r) (consistent : pt.Consistent r.list.nodes) :
    (∃ m r' pt', Returns (fun fuel => r.replace fuel pt) (some m, r', pt') ∧ pt.Evictable m ∧
      m ∈ r.list.nodes ∧ r'.list.nodes = m :: r.list.nodes.erase m) ↔
        ∃ m ∈ r.list.nodes, pt.Evictable m ∧ r.list.val m < 2 := by
  constructor
  · rintro ⟨m, r', pt', ⟨n, returned⟩, evictable, member, _⟩
    obtain ⟨j, _, list, cleared, zero, taken, _⟩ := replace_shape tidy.inside hand (returned n le_rfl)
    cases taken
    refine ⟨m, member, evictable, Nat.lt_of_not_le fun high => ?_⟩
    have kept := cleared.high m high
    omega
  · rintro ⟨target, member, evictable, low⟩
    obtain ⟨⟨taken, r', pt'⟩, ran⟩ := exists_replace tidy hand consistent member evictable low
    obtain ⟨j, here, list, cleared, _, rfl, rfl⟩ := replace_shape tidy.inside hand ran
    refine ⟨j, _, pt', (replace_stable r pt).returns ran, replace_evictable hand consistent ran rfl,
      here, ?_⟩
    rw [cleared.nodes]

end Gbp.SieveReplacer_v3
