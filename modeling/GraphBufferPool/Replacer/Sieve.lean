import GraphBufferPool.Replacer.ListArray
import GraphBufferPool.Replacer.Replacer

/-! # The SIEVE replacer over sequences

`SieveReplacer_v3` and its contract. `Victim` sweeps from the hand towards the front and around,
lowering the values it meets. Every iteration of its two loops brings the sweep one node closer to
any evictable frame, going around once more for each mark on it, so the `2 * capacity_` tries
suffice.
-/

namespace Gbp

/-- `SieveReplacer_v3`. -/
structure SieveReplacer_v3 where
  list : ListArray
  pointer : ListIndex

namespace SieveReplacer_v3

/-- The constructor. -/
def new (capacity : ℕ) : SieveReplacer_v3 := ⟨.new capacity, .head⟩

/-- `Insert`; `getValue` raises an exception past the capacity. -/
def insert (r : SieveReplacer_v3) (value : ℕ) : Except Stop (Bool × SieveReplacer_v3) := do
  if r.list.capacity ≤ value then throw .badIndex
  let (moved, list) := (r.list.setValue value 0).moveToFront value
  check moved
  return (true, { r with list := list })

/-- `Promote`. -/
def promote (r : SieveReplacer_v3) (value : ℕ) : Except Stop (Bool × SieveReplacer_v3) := do
  if r.list.capacity ≤ value then throw .badIndex
  return (true, { r with list := r.list.setValue value 1 })

/-- The inner loop of `Victim`: lower positive values and move on. The fuel bounds the marks. -/
def skipMarked : ℕ → ListArray → ListIndex → Except Stop (ℕ × ListArray)
  | fuel, list, .node i =>
    if list.val i = 0 then .ok (i, list)
    else
      match fuel with
      | 0 => .error .outOfFuel
      | fuel + 1 =>
        let lowered := list.setValue i (list.val i - 1)
        skipMarked fuel lowered (lowered.sweepFrom i)
  | _, _, _ => .error .badIndex

/-- The outer loop of `Victim` with `count` tries left: the frame it breaks out with. -/
def victimLoop (pt : PageTable) : ℕ → ListArray → ListIndex → Except Stop (ℕ × ListArray × PageTable)
  | 0, _, _ => .error .assertion
  | count + 1, list, toEvict => do
    let (i, list) ← skipMarked (list.marks + 1) list toEvict
    if (pt.ptes i).refCount ≠ 0 then victimLoop pt count list (list.sweepFrom i)
    else
      let (locked, table) ← pt.lockMapping (pt.ptes i).page
      match locked with
      | some value =>
        if (table.ptes i).refCount = 0 ∧ value ≠ .empty then return (i, list, table)
        else
          let (unlocked, table) ← table.unLockMapping (table.ptes i).page value
          check unlocked
          victimLoop table count list (list.sweepFrom i)
      | none => victimLoop table count list (list.sweepFrom i)

/-- `Victim`. -/
def victim (r : SieveReplacer_v3) (pt : PageTable) :
    Except Stop (Option ℕ × SieveReplacer_v3 × PageTable) := do
  let toEvict := if r.pointer = .head then r.list.getTail else r.pointer
  if toEvict = .head then throw .assertion
  let (i, list, table) ← victimLoop pt (r.list.capacity * 2) r.list toEvict
  return (some i, ⟨list.removeFromIndex i, list.getPrevNodeIndex i⟩, table)

/-- `Clean`; the hand stays where it is. -/
def clean (r : SieveReplacer_v3) : Bool × SieveReplacer_v3 := (true, { r with list := r.list.clean })

instance : Replacer SieveReplacer_v3 := ⟨new, insert, promote, victim, clean⟩

/-- The linked frames are frames of the pool, once each, and `Promote` marks at most once. -/
structure Sound (list : ListArray) : Prop where
  distinct : list.nodes.Nodup
  inside : ∀ i ∈ list.nodes, i < list.capacity
  marked : ∀ i ∈ list.nodes, list.val i ≤ 1

/-- The sweep changes values only, and only downwards. -/
structure Lowered (list list' : ListArray) : Prop where
  nodes : list'.nodes = list.nodes
  capacity : list'.capacity = list.capacity
  val : ∀ i, list'.val i ≤ list.val i

theorem Lowered.refl (list : ListArray) : Lowered list list := ⟨rfl, rfl, fun _ => le_rfl⟩

theorem Lowered.trans {first second third : ListArray} (before : Lowered first second)
    (after : Lowered second third) : Lowered first third :=
  ⟨after.nodes.trans before.nodes, after.capacity.trans before.capacity,
    fun i => (after.val i).trans (before.val i)⟩

theorem Lowered.sound {list list' : ListArray} (lowered : Lowered list list') (sound : Sound list) :
    Sound list' where
  distinct := lowered.nodes ▸ sound.distinct
  inside := by
    rw [lowered.nodes, lowered.capacity]
    exact sound.inside
  marked := by
    rw [lowered.nodes]
    exact fun i linked => (lowered.val i).trans (sound.marked i linked)

theorem lowered_setValue (list : ListArray) (i : ℕ) :
    Lowered list (list.setValue i (list.val i - 1)) := by
  refine ⟨rfl, rfl, fun k => ?_⟩
  by_cases here : k = i
  · subst here
    simp [ListArray.setValue]
  · simp [ListArray.setValue, here]

/-- The number of moves after which the sweep takes frame `target` at the latest: once more around
for every mark on it. -/
def closeness (list : ListArray) (target i : ℕ) : ℕ :=
  list.distance target i + list.nodes.length * list.val target

/-- Passing a marked frame brings the sweep closer to every frame. -/
theorem closeness_lower {list : ListArray} {target i : ℕ} (distinct : list.nodes.Nodup)
    (linked : i ∈ list.nodes) (member : target ∈ list.nodes) (marked : 0 < list.val i) :
    ∃ j ∈ list.nodes, list.sweepFrom i = .node j ∧
      closeness (list.setValue i (list.val i - 1)) target j + 1 ≤ closeness list target i := by
  obtain ⟨j, later, moved, step⟩ :=
    ListArray.exists_sweepFrom_distance distinct linked member
  refine ⟨j, later, moved, ?_⟩
  have same : (list.setValue i (list.val i - 1)).distance target j = list.distance target j := rfl
  simp only [closeness, same]
  by_cases here : i = target
  · subst here
    obtain ⟨rest, value⟩ : ∃ rest, list.val i = rest + 1 := ⟨list.val i - 1, by omega⟩
    have lower : (list.setValue i (list.val i - 1)).val i = rest := by
      simp [ListArray.setValue, value]
    rw [if_pos rfl] at step
    rw [lower, value, Nat.mul_succ]
    simp only [ListArray.setValue]
    omega
  · have unchanged : (list.setValue i (list.val i - 1)).val target = list.val target :=
      Function.update_of_ne (Ne.symm here) ..
    rw [if_neg here] at step
    rw [unchanged]
    simp only [ListArray.setValue]
    omega

/-- The inner loop ends at an unmarked frame. -/
theorem exists_skipMarked {fuel : ℕ} {list : ListArray} {i : ℕ} (distinct : list.nodes.Nodup)
    (linked : i ∈ list.nodes) (enough : list.marks ≤ fuel) :
    ∃ j list', skipMarked fuel list (.node i) = .ok (j, list') ∧ Lowered list list' ∧
      j ∈ list.nodes ∧ ∀ target ∈ list.nodes, closeness list' target j ≤ closeness list target i := by
  induction fuel generalizing list i with
  | zero =>
    have zero : list.val i = 0 := by
      have := List.single_le_sum (l := list.nodes.map list.val) (fun _ _ => Nat.zero_le _) _
        (List.mem_map_of_mem linked)
      unfold ListArray.marks at enough
      omega
    exact ⟨i, list, by simp [skipMarked, zero], .refl list, linked, fun _ _ => le_rfl⟩
  | succ fuel ih =>
    by_cases zero : list.val i = 0
    · exact ⟨i, list, by simp [skipMarked, zero], .refl list, linked, fun _ _ => le_rfl⟩
    · have marked : 0 < list.val i := Nat.pos_of_ne_zero zero
      have lowered := lowered_setValue list i
      have kept : (list.setValue i (list.val i - 1)).nodes.Nodup := distinct
      obtain ⟨k, later, moved, _⟩ := closeness_lower distinct linked linked marked
      have fewer := ListArray.marks_setValue distinct linked (list.val i - 1)
      obtain ⟨j, list', ran, lowered', member, closer⟩ :=
        ih kept (i := k) later (by omega)
      refine ⟨j, list', ?_, lowered.trans lowered', member, fun target linked' => ?_⟩
      · rw [skipMarked, if_neg zero]
        dsimp only
        rw [ListArray.sweepFrom_setValue, moved, ran]
      · obtain ⟨k', _, moved', step⟩ := closeness_lower distinct linked linked' marked
        cases moved.symm.trans moved'
        have := closer target linked'
        omega

variable {pt : PageTable}

/-- What the body of the outer loop does at an unmarked frame `j`. -/
theorem victimLoop_at {count fuel : ℕ} {list list' : ListArray} {start : ListIndex} {j : ℕ}
    (answers : pt.Answers j) (skipped : skipMarked (list.marks + 1) list start = .ok (j, list'))
    (run : fuel = count + 1) :
    (pt.Evictable j ∧
        victimLoop pt fuel list start = .ok (j, list', pt.lockFrame (pt.ptes j).page j)) ∨
      (¬ pt.Evictable j ∧
        victimLoop pt fuel list start = victimLoop pt count list' (list'.sweepFrom j)) ∨
      (pt.word? (pt.ptes j).page = none ∧ victimLoop pt fuel list start = .error .nullMapping) := by
  subst run
  rw [victimLoop, skipped, ok_bind]
  dsimp only
  by_cases held : (pt.ptes j).refCount = 0
  · rw [if_neg (not_not.mpr held)]
    cases answers with
    | takes evictable =>
      left
      have unchanged : ((pt.lockFrame (pt.ptes j).page j).ptes j).refCount = 0 := by
        simp [PageTable.lockFrame, held]
      refine ⟨evictable, ?_⟩
      rw [evictable.takes, ok_bind]
      dsimp only
      rw [if_pos ⟨unchanged, by simp⟩]
      rfl
    | refuses kept locked =>
      right; left
      exact ⟨kept, by rw [locked, ok_bind]⟩
    | orphan gone =>
      right; right
      refine ⟨gone, ?_⟩
      rw [PageTable.lockMapping_none gone, error_bind]
  · right; left
    exact ⟨fun evictable => held evictable.2.2, if_pos held⟩

/-- The sweep breaks out with a linked evictable frame, locked. -/
theorem victimLoop_sound {count : ℕ} {list : ListArray} {i : ℕ} (distinct : list.nodes.Nodup)
    (answers : ∀ k ∈ list.nodes, pt.Answers k) (linked : i ∈ list.nodes) {j : ℕ} {list' : ListArray}
    {table : PageTable} (ran : victimLoop pt count list (.node i) = .ok (j, list', table)) :
    Lowered list list' ∧ j ∈ list.nodes ∧ pt.Evictable j ∧
      table = pt.lockFrame (pt.ptes j).page j := by
  induction count generalizing list i with
  | zero => cases ran
  | succ count ih =>
    obtain ⟨k, middle, skipped, lowered, member, _⟩ :=
      exists_skipMarked distinct linked (Nat.le_succ list.marks)
    rcases victimLoop_at (answers k member) skipped rfl with
      ⟨evictable, result⟩ | ⟨_, result⟩ | ⟨_, result⟩
    · rw [result] at ran
      cases ran
      exact ⟨lowered, member, evictable, rfl⟩
    · obtain ⟨next, later, moved⟩ := ListArray.exists_sweepFrom (lowered.nodes ▸ member)
      rw [result, moved] at ran
      obtain ⟨lowered', linked', evictable, locked⟩ :=
        ih (lowered.nodes ▸ distinct) (fun k linked => answers k (lowered.nodes ▸ linked)) later ran
      exact ⟨lowered.trans lowered', lowered.nodes ▸ linked', evictable, locked⟩
    · rw [result] at ran
      cases ran

/-- Enough tries reach any evictable frame, or another one before it. -/
theorem exists_victimLoop {count : ℕ} {list : ListArray} {i target : ℕ} (distinct : list.nodes.Nodup)
    (answers : ∀ k ∈ list.nodes, pt.Answers k)
    (registered : ∀ k ∈ list.nodes, pt.word? (pt.ptes k).page ≠ none) (linked : i ∈ list.nodes)
    (member : target ∈ list.nodes) (evictable : pt.Evictable target)
    (enough : closeness list target i < count) :
    ∃ result, victimLoop pt count list (.node i) = .ok result := by
  induction count generalizing list i with
  | zero => omega
  | succ count ih =>
    obtain ⟨k, middle, skipped, lowered, here, closer⟩ :=
      exists_skipMarked distinct linked (Nat.le_succ list.marks)
    rcases victimLoop_at (answers k here) skipped rfl with
      ⟨_, result⟩ | ⟨refused, result⟩ | ⟨gone, _⟩
    · exact ⟨_, result⟩
    · have other : k ≠ target := by
        rintro rfl
        exact refused evictable
      rw [← lowered.nodes] at here member
      obtain ⟨next, later, moved, step⟩ :=
        ListArray.exists_sweepFrom_distance (lowered.nodes ▸ distinct) here member
      rw [if_neg other] at step
      have bound := closer target (lowered.nodes ▸ member)
      rw [result, moved]
      apply ih (lowered.nodes ▸ distinct)
      · exact fun k linked => answers k (lowered.nodes ▸ linked)
      · exact fun k linked => registered k (lowered.nodes ▸ linked)
      · exact later
      · exact member
      · unfold closeness at bound enough ⊢
        omega
    · exact absurd gone (registered k here)

/-- The hand is at the head or on a linked frame. -/
def Ready (r : SieveReplacer_v3) : Prop :=
  Sound r.list ∧ (r.pointer = .head ∨ ∃ i ∈ r.list.nodes, r.pointer = .node i)

/-- The hand is at the head or on some frame of the pool. -/
def Calm (r : SieveReplacer_v3) : Prop :=
  Sound r.list ∧ (r.pointer = .head ∨ ∃ i < r.list.capacity, r.pointer = .node i)

theorem Ready.calm {r : SieveReplacer_v3} (ready : Ready r) : Calm r :=
  ⟨ready.1, ready.2.imp_right fun ⟨i, linked, here⟩ => ⟨i, ready.1.inside i linked, here⟩⟩

theorem Calm.ready {r : SieveReplacer_v3} (calm : Calm r)
    (linked : ∀ m < r.list.capacity, m ∈ r.list.nodes) : Ready r :=
  ⟨calm.1, calm.2.imp_right fun ⟨i, inside, here⟩ => ⟨i, linked i inside, here⟩⟩

/-- `Clean` forgets every frame. -/
theorem Calm.clean {r : SieveReplacer_v3} (calm : Calm r) : Calm r.clean.2 :=
  ⟨⟨List.nodup_nil, by simp [SieveReplacer_v3.clean, ListArray.clean, ListArray.new],
    by simp [SieveReplacer_v3.clean, ListArray.clean, ListArray.new]⟩, calm.2⟩

/-- The hand stands at the head sentinel or on a linked node. -/
def HandValid (r : SieveReplacer_v3) : Prop :=
  r.pointer = .head ∨ ∃ i ∈ r.list.nodes, r.pointer = .node i

/-- With a valid hand the sweep starts at a linked frame, if there is one. -/
theorem HandValid.start {r : SieveReplacer_v3} (hand : HandValid r) :
    (if r.pointer = .head then r.list.getTail else r.pointer) = .head ∧ r.list.nodes = [] ∨
      ∃ i ∈ r.list.nodes, (if r.pointer = .head then r.list.getTail else r.pointer) = .node i := by
  rcases hand with head | ⟨i, linked, here⟩
  · rw [if_pos head]
    cases last : r.list.nodes.getLast? with
    | none => exact Or.inl ⟨by simp [ListArray.getTail, last], List.getLast?_eq_none_iff.mp last⟩
    | some i => exact Or.inr ⟨i, List.mem_of_getLast? last, by simp [ListArray.getTail, last]⟩
  · exact Or.inr ⟨i, linked, by simp [here]⟩

theorem insert_eq {r : SieveReplacer_v3} {m : ℕ} (inside : m < r.list.capacity) :
    r.insert m = .ok (true, { r with
      list := { r.list.setValue m 0 with nodes := m :: r.list.nodes.erase m } }) := by
  simp only [insert, Nat.not_le.mpr inside, if_false, ListArray.moveToFront, ListArray.setValue]
  rfl

theorem promote_eq {r : SieveReplacer_v3} {m : ℕ} (inside : m < r.list.capacity) :
    r.promote m = .ok (true, { r with list := r.list.setValue m 1 }) := by
  simp only [promote, Nat.not_le.mpr inside, if_false]
  rfl

private theorem sound_insert {list : ListArray} {m : ℕ} (sound : Sound list)
    (inside : m < list.capacity) :
    Sound { list.setValue m 0 with nodes := m :: list.nodes.erase m } := by
  constructor
  · exact List.nodup_cons.mpr ⟨sound.distinct.not_mem_erase, sound.distinct.erase m⟩
  · intro i linked
    rcases List.mem_cons.mp linked with rfl | earlier
    · exact inside
    · exact sound.inside i (List.mem_of_mem_erase earlier)
  · intro i linked
    by_cases here : i = m
    · subst here
      simp [ListArray.setValue]
    · have earlier := List.mem_of_mem_erase ((List.mem_cons.mp linked).resolve_left here)
      simpa [ListArray.setValue, here] using sound.marked i earlier

private theorem sound_promote {list : ListArray} (sound : Sound list) (m : ℕ) :
    Sound (list.setValue m 1) := by
  refine ⟨sound.distinct, sound.inside, fun i linked => ?_⟩
  by_cases here : i = m
  · subst here
    simp [ListArray.setValue]
  · simpa [ListArray.setValue, here] using sound.marked i linked

private theorem mem_insert {nodes : List ℕ} {m : ℕ} (k : ℕ) :
    k ∈ m :: nodes.erase m ↔ k = m ∨ k ∈ nodes := by
  rw [List.mem_cons]
  by_cases here : k = m
  · simp [here]
  · rw [List.mem_erase_of_ne here]

theorem Ready.insert {r : SieveReplacer_v3} {m : ℕ} (ready : Ready r)
    (inside : m < r.list.capacity) :
    Ready { r with list := { r.list.setValue m 0 with nodes := m :: r.list.nodes.erase m } } :=
  ⟨sound_insert ready.1 inside, ready.2.imp_right fun ⟨i, linked, here⟩ =>
    ⟨i, (mem_insert i).mpr (Or.inr linked), here⟩⟩

theorem Calm.insert {r : SieveReplacer_v3} {m : ℕ} (calm : Calm r) (inside : m < r.list.capacity) :
    Calm { r with list := { r.list.setValue m 0 with nodes := m :: r.list.nodes.erase m } } :=
  ⟨sound_insert calm.1 inside, calm.2⟩

/-- A victim is a linked evictable frame; the hand stays on a linked one. -/
theorem Ready.victim_sound {r r' : SieveReplacer_v3} (ready : Ready r)
    (answers : ∀ k ∈ r.list.nodes, pt.Answers k) {m : ℕ} {table : PageTable}
    (ran : r.victim pt = .ok (some m, r', table)) : m ∈ r.list.nodes ∧ pt.Evictable m ∧
      table = pt.lockFrame (pt.ptes m).page m ∧ r'.list.capacity = r.list.capacity ∧
        r'.list.nodes = r.list.nodes.erase m ∧ Ready r' := by
  simp only [victim] at ran
  rcases HandValid.start ready.2 with ⟨head, _⟩ | ⟨i, linked, start⟩
  · rw [if_pos head] at ran
    cases ran
  · rw [if_neg (by rw [start]; nofun), start] at ran
    obtain ⟨⟨j, list, locked⟩, swept, result⟩ := bind_eq_ok.mp ran
    obtain ⟨rfl, rfl, rfl⟩ : j = m ∧ ⟨list.removeFromIndex j, list.getPrevNodeIndex j⟩ = r' ∧
        locked = table := by
      simpa [pure, Except.pure] using result
    obtain ⟨lowered, member, evictable, rfl⟩ := victimLoop_sound ready.1.distinct answers linked swept
    have inside := ready.1.inside j member
    have removed : list.removeFromIndex j = { list with nodes := list.nodes.erase j } := by
      rw [ListArray.removeFromIndex, if_neg (by rw [lowered.capacity]; omega)]
    have sound := lowered.sound ready.1
    refine ⟨member, evictable, rfl, ?_, ?_, ?_, ?_⟩
    · rw [removed]
      exact lowered.capacity
    · rw [removed, ← lowered.nodes]
    · rw [removed]
      exact ⟨sound.distinct.erase j, fun k linked => sound.inside k (List.mem_of_mem_erase linked),
        fun k linked => sound.marked k (List.mem_of_mem_erase linked)⟩
    · rw [removed]
      cases prev : list.getPrevNodeIndex j with
      | head => exact Or.inl rfl
      | node i => exact Or.inr ⟨i, ListArray.getPrevNodeIndex_mem_erase sound.distinct prev, rfl⟩
      | invalid =>
        exact absurd prev (ListArray.getPrevNodeIndex_ne_invalid (lowered.nodes ▸ member))

/-- `Victim` finds a frame wherever one is evictable. -/
theorem Ready.victim_complete {r : SieveReplacer_v3} (ready : Ready r)
    (answers : ∀ k ∈ r.list.nodes, pt.Answers k)
    (registered : ∀ k ∈ r.list.nodes, pt.word? (pt.ptes k).page ≠ none)
    (exists_evictable : ∃ k ∈ r.list.nodes, pt.Evictable k) :
    ∃ m r' table, r.victim pt = .ok (some m, r', table) := by
  obtain ⟨target, member, evictable⟩ := exists_evictable
  rcases HandValid.start ready.2 with ⟨_, empty⟩ | ⟨i, linked, start⟩
  · simp [empty] at member
  · have fits : r.list.nodes.length ≤ r.list.capacity := by
      have within : r.list.nodes ⊆ List.range r.list.capacity :=
        fun i linked => List.mem_range.mpr (ready.1.inside i linked)
      simpa using (ready.1.distinct.subperm within).length_le
    have enough : closeness r.list target i < r.list.capacity * 2 := by
      have near := ListArray.distance_lt target linked
      have once := Nat.mul_le_mul_left r.list.nodes.length (ready.1.marked target member)
      unfold closeness
      omega
    obtain ⟨⟨j, list, table⟩, swept⟩ :=
      exists_victimLoop ready.1.distinct answers registered linked member evictable enough
    refine ⟨j, ⟨list.removeFromIndex j, list.getPrevNodeIndex j⟩, table, ?_⟩
    simp only [victim, start]
    rw [if_neg nofun, swept]
    rfl

instance : LawfulReplacer SieveReplacer_v3 where
  frames r := r.list.nodes
  capacity r := r.list.capacity
  Calm := Calm
  Ready := Ready
  frames_new _ := rfl
  capacity_new _ := rfl
  ready_new _ := ⟨⟨List.nodup_nil, nofun, nofun⟩, Or.inl rfl⟩
  calm_of_ready _ := Ready.calm
  ready_of_calm _ := Calm.ready
  nodup _ calm := calm.1.distinct
  insert_ok _ _ calm inside :=
    ⟨_, insert_eq inside, rfl, mem_insert, calm.insert inside, fun ready => ready.insert inside⟩
  promote_ok _ m calm linked :=
    ⟨_, promote_eq (calm.1.inside m linked), rfl, fun _ => Iff.rfl, ⟨sound_promote calm.1 m, calm.2⟩,
      fun ready => ⟨sound_promote ready.1 m, ready.2⟩⟩
  clean_ok _ calm := ⟨calm.clean, rfl, rfl⟩
  victim_sound _ _ _ _ _ ready settled ran := by
    obtain ⟨member, evictable, locked, capacity, nodes, ready'⟩ :=
      ready.victim_sound (fun k linked => (settled k linked).answers) ran
    refine ⟨member, evictable, locked, capacity, fun k => ?_, ready'⟩
    rw [nodes, and_comm]
    exact ready.1.distinct.mem_erase_iff
  victim_complete _ _ ready settled registered found :=
    ready.victim_complete (fun k linked => (settled k linked).answers) registered found

end SieveReplacer_v3

end Gbp
