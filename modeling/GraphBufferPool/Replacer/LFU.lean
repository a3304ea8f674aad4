import GraphBufferPool.Replacer.Policy

/-! # The LFU replacer

`LFUReplacer` groups its nodes by their number of hits, a 32-bit counter that wraps around. Reading
`freq_map_` with `operator[]` leaves a null node under an absent key; `Promote` fails where it meets
one, which takes a counter about to wrap around.
-/

namespace Gbp

/-- The number of values of the counter `ListNode::freq`. -/
abbrev freqRange : ℕ := 2 ^ 32

/-- `FreqNode`: the frames from `first_node` to `last_node`, with the two fields beside them. -/
structure FreqNode where
  objs : List ℕ
  freq : ℕ
  nObj : ℕ

/-- `append_obj_to_tail`, with the count. -/
def FreqNode.append (node : FreqNode) (value : ℕ) : FreqNode :=
  { node with objs := node.objs ++ [value], nObj := node.nObj + 1 }

/-- `remove_obj_from_list`, with the count. -/
def FreqNode.remove (node : FreqNode) (value : ℕ) : FreqNode :=
  { node with objs := node.objs.erase value, nObj := node.nObj - 1 }

/-- `LFUReplacer`: the frames in `map_`, the field `freq` of their nodes, and `freq_map_`, which may hold a
null pointer under a key. `freq_one_node` is the node under 1. -/
structure LFUReplacer where
  map : Finset ℕ
  freq : ℕ → ℕ
  freqMap : ℕ → Option (Option FreqNode)
  maxFreq : ℕ
  minFreq : ℕ

namespace LFUReplacer

/-- The constructor. -/
def new : LFUReplacer := ⟨∅, fun _ => 0, Function.update (fun _ => none) 1 (some (some ⟨[], 1, 0⟩)), 1, 1⟩

/-- The node under a key, dereferenced. -/
def node (r : LFUReplacer) (freq : ℕ) : Except Stop FreqNode :=
  match r.freqMap freq with
  | some (some node) => .ok node
  | _ => .error .nullNode

def setNode (r : LFUReplacer) (freq : ℕ) (node : FreqNode) : LFUReplacer :=
  { r with freqMap := Function.update r.freqMap freq (some (some node)) }

/-- The loop of `update_min_freq` over the keys that are left. -/
def searchFreq (freqMap : ℕ → Option (Option FreqNode)) : List ℕ → Except Stop (Option ℕ)
  | [] => .ok none
  | f :: rest =>
    match freqMap f with
    | none => searchFreq freqMap rest
    | some none => .error .nullNode
    | some (some node) => if 0 < node.nObj then .ok (some f) else searchFreq freqMap rest

/-- `update_min_freq`. -/
def updateMinFreq (r : LFUReplacer) : Except Stop LFUReplacer := do
  let found ← searchFreq r.freqMap (List.range' (r.minFreq + 1) (r.maxFreq - r.minFreq))
  return { r with minFreq := found.getD r.minFreq }

/-- `Insert`. -/
def insert (r : LFUReplacer) (value : ℕ) : Except Stop (Bool × LFUReplacer) := do
  if value ∈ r.map then return (false, r)
  else
    let one ← r.node 1
    return (true, { r with
      minFreq := 1
      map := Insert.insert value r.map
      freq := Function.update r.freq value 1
      freqMap := Function.update r.freqMap 1 (some (some (one.append value))) })

/-- The node `freq_map_.find(new_freq)` leads to, or a new one. -/
def newNode (r : LFUReplacer) (newFreq : ℕ) : Except Stop FreqNode :=
  match r.freqMap newFreq with
  | none => .ok ⟨[], newFreq, 0⟩
  | some none => .error .nullNode
  | some (some node) => .ok node

/-- The smallest count in use after `oldNode` became empty. -/
def leaveMinFreq (r : LFUReplacer) (oldNode : FreqNode) : Except Stop LFUReplacer :=
  if r.minFreq = oldNode.freq then r.updateMinFreq else .ok r

/-- The end of `Promote`, for the node the frame has left. -/
def dropEmpty (r : LFUReplacer) (oldFreq : ℕ) (oldNode : FreqNode) : Except Stop LFUReplacer :=
  if oldNode.nObj = 0 then do
    let r ← r.leaveMinFreq oldNode
    return if oldNode.freq ≠ 1 then { r with freqMap := Function.update r.freqMap oldFreq none } else r
  else .ok r

/-- `Promote`. -/
def promote (r : LFUReplacer) (value : ℕ) : Except Stop (Bool × LFUReplacer) := do
  if value ∈ r.map then
    let newFreq := (r.freq value + 1) % freqRange
    let oldFreq := (newFreq + (freqRange - 1)) % freqRange
    let oldNode ← r.node oldFreq
    let left := oldNode.remove value
    let r := { r with
      freq := Function.update r.freq value newFreq
      maxFreq := max r.maxFreq newFreq }
    let r := r.setNode oldFreq left
    let target ← r.newNode newFreq
    let r ← (r.setNode newFreq (target.append value)).dropEmpty oldFreq left
    return (true, r)
  else return (false, r)

/-- The smallest count in use, searched for where a `Victim` has left it open. -/
def refreshMinFreq (r : LFUReplacer) : Except Stop LFUReplacer :=
  if r.minFreq = 0 then r.updateMinFreq else .ok r

/-- `get_min_freq_node`, where `freq_map_[min_freq]` adds a null node under an absent key. -/
def minFreqNode (r : LFUReplacer) : Except Stop (Option FreqNode × LFUReplacer) :=
  if r.minFreq = 1 then do return (some (← r.node 1), r)
  else do
    let r ← r.refreshMinFreq
    match r.freqMap r.minFreq with
    | some found => return (found, r)
    | none => return (none, { r with freqMap := Function.update r.freqMap r.minFreq (some none) })

/-- `Victim`; it looks at no page. -/
def victim (r : LFUReplacer) : Except Stop (Option ℕ × LFUReplacer) := do
  let (found, r) ← r.minFreqNode
  match found with
  | none => return (none, r)
  | some minNode =>
    if minNode.nObj = 0 then return (none, r)
    else
      match minNode.objs with
      | [] => throw .nullNode
      | i :: _ =>
        let left := minNode.remove i
        let r := { r.setNode r.minFreq left with map := r.map.erase i }
        return (some i, if left.nObj = 0 then { r with minFreq := 0 } else r)

/-- The end of `Erase`, for the node the frame has left. -/
def eraseMinFreq (r : LFUReplacer) (freqNode : FreqNode) : Except Stop LFUReplacer :=
  if freqNode.freq = r.minFreq ∧ freqNode.nObj = 0 then r.updateMinFreq else .ok r

/-- `Erase`. -/
def erase (r : LFUReplacer) (value : ℕ) : Except Stop (Bool × LFUReplacer) := do
  if value ∈ r.map then
    let freqNode ← r.node (r.freq value)
    let left := freqNode.remove value
    let r ← { r.setNode (r.freq value) left with map := r.map.erase value }.eraseMinFreq left
    return (true, r)
  else return (false, r)

instance : Policy LFUReplacer where
  Constructed _ r := r = new
  insert := insert
  promote := promote
  victim _ r pt := do
    let (taken, r) ← r.victim
    return (taken, r, pt)

/-- The node under `f` lists the tracked frames with `f` hits. -/
structure Lists (map : Finset ℕ) (freq : ℕ → ℕ) (f : ℕ) (node : FreqNode) : Prop where
  key : node.freq = f
  count : node.nObj = node.objs.length
  distinct : node.objs.Nodup
  mem : ∀ k, k ∈ node.objs ↔ k ∈ map ∧ freq k = f

/-- The nodes of `freq_map_` list the tracked frames by their hits. -/
structure Grouped (map : Finset ℕ) (freq : ℕ → ℕ) (freqMap : ℕ → Option (Option FreqNode)) : Prop where
  lists : ∀ f node, freqMap f = some (some node) → Lists map freq f node
  known : ∀ k ∈ map, ∃ node, freqMap (freq k) = some (some node)

variable {map : Finset ℕ} {freq : ℕ → ℕ} {freqMap : ℕ → Option (Option FreqNode)} {m f : ℕ}
  {node : FreqNode}

/-- A frame leaves its node and the map. -/
theorem Grouped.remove (grouped : Grouped map freq freqMap) (member : m ∈ map)
    (here : freqMap (freq m) = some (some node)) :
    Grouped (map.erase m) freq (Function.update freqMap (freq m) (some (some (node.remove m)))) := by
  have old := grouped.lists _ _ here
  constructor
  · intro g other found
    by_cases same : g = freq m
    · subst same
      rw [Function.update_self] at found
      cases found
      refine ⟨old.key, ?_, old.distinct.erase m, fun k => ?_⟩
      · rw [FreqNode.remove, List.length_erase_of_mem ((old.mem m).mpr ⟨member, rfl⟩), old.count]
      · rw [FreqNode.remove, old.distinct.mem_erase_iff, old.mem, Finset.mem_erase, and_assoc]
    · rw [Function.update_of_ne same] at found
      have kept := grouped.lists g other found
      refine ⟨kept.key, kept.count, kept.distinct, fun k => ?_⟩
      rw [kept.mem, Finset.mem_erase]
      constructor
      · rintro ⟨member, value⟩
        refine ⟨⟨?_, member⟩, value⟩
        rintro rfl
        exact same value.symm
      · exact fun ⟨⟨_, member⟩, value⟩ => ⟨member, value⟩
  · intro k member
    obtain ⟨other, found⟩ := grouped.known k (Finset.mem_of_mem_erase member)
    by_cases same : freq k = freq m
    · exact ⟨_, by rw [same, Function.update_self]⟩
    · exact ⟨other, by rw [Function.update_of_ne same, found]⟩

/-- A frame enters the map and the node of its hits, which may be new. -/
theorem Grouped.add (grouped : Grouped map freq freqMap) (fresh : m ∉ map)
    (here : freqMap f = some (some node) ∨ freqMap f = none ∧ node = ⟨[], f, 0⟩) :
    Grouped (Insert.insert m map) (Function.update freq m f)
      (Function.update freqMap f (some (some (node.append m)))) := by
  have old : Lists map freq f node := by
    rcases here with found | ⟨absent, rfl⟩
    · exact grouped.lists f node found
    · refine ⟨rfl, rfl, List.nodup_nil, fun k => ⟨nofun, fun ⟨member, value⟩ => ?_⟩⟩
      obtain ⟨other, found⟩ := grouped.known k member
      rw [value, absent] at found
      cases found
  have outside : m ∉ node.objs := fun member => fresh ((old.mem m).mp member).1
  constructor
  · intro g other found
    by_cases same : g = f
    · subst same
      rw [Function.update_self] at found
      cases found
      refine ⟨old.key, ?_, ?_, fun k => ?_⟩
      · simp [FreqNode.append, old.count]
      · refine List.nodup_append.mpr ⟨old.distinct, List.nodup_singleton m, ?_⟩
        intro k member j single
        rw [List.mem_singleton.mp single]
        rintro rfl
        exact outside member
      · rw [FreqNode.append, List.mem_append, List.mem_singleton, old.mem, Finset.mem_insert]
        by_cases self : k = m
        · subst self
          simp
        · rw [Function.update_of_ne self]
          simp [self]
    · rw [Function.update_of_ne same] at found
      have kept := grouped.lists g other found
      refine ⟨kept.key, kept.count, kept.distinct, fun k => ?_⟩
      rw [kept.mem, Finset.mem_insert]
      by_cases self : k = m
      · subst self
        rw [Function.update_self]
        simp [fresh, Ne.symm same]
      · rw [Function.update_of_ne self]
        simp [self]
  · intro k member
    by_cases self : k = m
    · subst self
      exact ⟨_, by rw [Function.update_self, Function.update_self]⟩
    · rw [Function.update_of_ne self]
      by_cases same : freq k = f
      · exact ⟨_, by rw [same, Function.update_self]⟩
      · rw [Function.update_of_ne same]
        exact grouped.known k ((Finset.mem_insert.mp member).resolve_left self)

/-- An empty node may be erased. -/
theorem Grouped.drop (grouped : Grouped map freq freqMap) (here : freqMap f = some (some node))
    (empty : node.objs = []) : Grouped map freq (Function.update freqMap f none) := by
  constructor
  · intro g other found
    by_cases same : g = f
    · subst same
      rw [Function.update_self] at found
      cases found
    · rw [Function.update_of_ne same] at found
      exact grouped.lists g other found
  · intro k member
    obtain ⟨other, found⟩ := grouped.known k member
    have apart : freq k ≠ f := by
      rintro rfl
      have inside := ((grouped.lists _ _ here).mem k).mpr ⟨member, rfl⟩
      rw [empty] at inside
      cases inside
    exact ⟨other, by rw [Function.update_of_ne apart, found]⟩

/-- A null node under an absent key lists nothing. -/
theorem Grouped.null (grouped : Grouped map freq freqMap) (absent : freqMap f = none) :
    Grouped map freq (Function.update freqMap f (some none)) := by
  constructor
  · intro g other found
    by_cases same : g = f
    · subst same
      rw [Function.update_self] at found
      cases found
    · rw [Function.update_of_ne same] at found
      exact grouped.lists g other found
  · intro k member
    obtain ⟨other, found⟩ := grouped.known k member
    have apart : freq k ≠ f := by
      rintro rfl
      rw [absent] at found
      cases found
    exact ⟨other, by rw [Function.update_of_ne apart, found]⟩

/-- The replacer in order. A null node lies only under the two keys around the wrap of the counter, and the
smallest count in use has a node unless it is one of these. -/
structure Good (r : LFUReplacer) : Prop where
  grouped : Grouped r.map r.freq r.freqMap
  one : ∃ node, r.freqMap 1 = some (some node)
  small : ∀ k ∈ r.map, r.freq k < freqRange
  max : r.maxFreq < freqRange
  nulls : ∀ f, r.freqMap f = some none → f = 0 ∨ f + 1 = freqRange
  min : r.minFreq = 0 ∨ r.minFreq + 1 = freqRange ∨ ∃ node, r.freqMap r.minFreq = some (some node)

variable {r r' : LFUReplacer} {left : FreqNode}

theorem good_new : Good new where
  grouped := by
    refine ⟨fun f node found => ?_, nofun⟩
    by_cases one : f = 1
    · subst one
      cases found
      exact ⟨rfl, rfl, List.nodup_nil, by simp [new]⟩
    · simp [new, Function.update_of_ne one] at found
  one := ⟨_, rfl⟩
  small := nofun
  max := by decide
  nulls f found := by
    by_cases one : f = 1
    · subst one
      cases found
    · simp [new, Function.update_of_ne one] at found
  min := Or.inr (Or.inr ⟨_, rfl⟩)

theorem Good.setMin (good : Good r) {x : ℕ}
    (min : x = 0 ∨ x + 1 = freqRange ∨ ∃ node, r.freqMap x = some (some node)) :
    Good { r with minFreq := x } :=
  ⟨good.grouped, good.one, good.small, good.max, good.nulls, min⟩

/-- A key with a node keeps having one where another node is stored. -/
private theorem present_update {freqMap : ℕ → Option (Option FreqNode)} {f g : ℕ} (node : FreqNode)
    (present : ∃ node, freqMap f = some (some node)) :
    ∃ other, Function.update freqMap g (some (some node)) f = some (some other) := by
  by_cases same : f = g
  · subst same
    exact ⟨node, Function.update_self ..⟩
  · rw [Function.update_of_ne same]
    exact present

private theorem null_update {freqMap : ℕ → Option (Option FreqNode)} {f g : ℕ} {node : FreqNode}
    (found : Function.update freqMap g (some (some node)) f = some none) : freqMap f = some none := by
  by_cases same : f = g
  · subst same
    rw [Function.update_self] at found
    cases found
  · rwa [Function.update_of_ne same] at found

/-- The key of an empty node is erased, unless it is 1 or the smallest count in use. -/
theorem Good.drop (good : Good r) (here : r.freqMap f = some (some left)) (empty : left.objs = [])
    (other : f ≠ 1) (min : r.minFreq ≠ f ∨ f + 1 = freqRange) :
    Good { r with freqMap := Function.update r.freqMap f none } where
  grouped := good.grouped.drop here empty
  one := by
    obtain ⟨node, found⟩ := good.one
    exact ⟨node, (Function.update_of_ne (Ne.symm other) ..).trans found⟩
  small := good.small
  max := good.max
  nulls g found := by
    have found : Function.update r.freqMap f none g = some none := found
    by_cases same : g = f
    · subst same
      rw [Function.update_self] at found
      cases found
    · rw [Function.update_of_ne same] at found
      exact good.nulls g found
  min := by
    rcases good.min with zero | last | ⟨node, found⟩
    · exact Or.inl zero
    · exact Or.inr (Or.inl last)
    · by_cases same : r.minFreq = f
      · right; left
        change r.minFreq + 1 = freqRange
        rw [same]
        exact min.resolve_left (not_not.mpr same)
      · right; right
        exact ⟨node, (Function.update_of_ne same ..).trans found⟩

/-- A frame leaves the map. -/
theorem Good.remove (good : Good r) (member : m ∈ r.map)
    (here : r.freqMap (r.freq m) = some (some node)) :
    Good { r.setNode (r.freq m) (node.remove m) with map := r.map.erase m } where
  grouped := good.grouped.remove member here
  one := present_update _ good.one
  small k inside := good.small k (Finset.mem_of_mem_erase inside)
  max := good.max
  nulls _ found := good.nulls _ (null_update found)
  min := good.min.imp_right (Or.imp_right (present_update _))

/-- A frame enters the map with `f` hits. -/
theorem Good.add (good : Good r) (fresh : m ∉ r.map) (small : f < freqRange)
    (here : r.freqMap f = some (some node) ∨ r.freqMap f = none ∧ node = ⟨[], f, 0⟩) :
    Good { r.setNode f (node.append m) with
      map := Insert.insert m r.map
      freq := Function.update r.freq m f } where
  grouped := good.grouped.add fresh here
  one := present_update _ good.one
  small k inside := by
    change Function.update r.freq m f k < freqRange
    by_cases self : k = m
    · subst self
      rwa [Function.update_self]
    · rw [Function.update_of_ne self]
      exact good.small k ((Finset.mem_insert.mp inside).resolve_left self)
  max := good.max
  nulls _ found := good.nulls _ (null_update found)
  min := good.min.imp_right (Or.imp_right (present_update _))

theorem Good.insert {inserted : Bool} (good : Good r) (ran : r.insert m = .ok (inserted, r')) :
    Good r' ∧ m ∈ r'.map ∧ ∀ k ∈ r.map, k ∈ r'.map := by
  unfold LFUReplacer.insert at ran
  split_ifs at ran with known
  · cases ran
    exact ⟨good, known, fun _ member => member⟩
  · obtain ⟨node, found⟩ := good.one
    simp only [LFUReplacer.node, found, ok_bind] at ran
    cases ran
    have added := good.add known (show 1 < freqRange by decide) (Or.inl found)
    exact ⟨added.setMin (Or.inr (Or.inr added.one)), Finset.mem_insert_self .., fun _ member =>
      Finset.mem_insert_of_mem member⟩

/-- What `update_min_freq` finds has a node with frames. -/
private theorem searchFreq_found {keys : List ℕ} (ran : searchFreq freqMap keys = .ok (some f)) :
    ∃ node, freqMap f = some (some node) := by
  induction keys with
  | nil => cases ran
  | cons g rest ih =>
    rw [searchFreq] at ran
    split at ran
    · exact ih ran
    · cases ran
    · next node found =>
      split_ifs at ran
      · cases ran
        exact ⟨node, found⟩
      · exact ih ran

/-- Where the node of the smallest count is emptied by a hit, the next count takes its place, unless the
counter wrapped around. -/
private theorem Good.updateMinFreq (good : Good r) (lowest : r.minFreq = f) (below : f < freqRange)
    (next : f + 1 < freqRange → f + 1 ≤ r.maxFreq ∧
      ∃ node, r.freqMap (f + 1) = some (some node) ∧ 0 < node.nObj) :
    ∃ x, r.updateMinFreq = .ok { r with minFreq := x } ∧
      (x = f + 1 ∧ f + 1 < freqRange ∨ x = f ∧ f + 1 = freqRange) := by
  rw [LFUReplacer.updateMinFreq, lowest]
  rcases Nat.lt_or_eq_of_le (Nat.succ_le_of_lt below) with room | last
  · obtain ⟨large, node, found, filled⟩ := next room
    obtain ⟨more, tries⟩ : ∃ more, r.maxFreq - f = more + 1 := ⟨r.maxFreq - f - 1, by omega⟩
    refine ⟨f + 1, ?_, Or.inl ⟨rfl, room⟩⟩
    rw [tries, List.range'_succ, searchFreq, found]
    simp only [filled, if_true, ok_bind]
    rfl
  · have none : r.maxFreq - f = 0 := by
      have := good.max
      omega
    refine ⟨f, ?_, Or.inr ⟨rfl, last⟩⟩
    rw [none]
    rfl

/-- What `Promote` does once the frame is in the next node: an empty old node goes, and the smallest
count in use moves on. -/
theorem Good.dropEmpty (good : Good r) (here : r.freqMap f = some (some left)) (below : f < freqRange)
    (next : f + 1 < freqRange → f + 1 ≤ r.maxFreq ∧
      ∃ node, r.freqMap (f + 1) = some (some node) ∧ 0 < node.nObj) :
    ∃ r', r.dropEmpty f left = .ok r' ∧ Good r' ∧ r'.map = r.map := by
  have lists := good.grouped.lists f left here
  have moved : ∃ x, r.leaveMinFreq left = .ok { r with minFreq := x } ∧
      Good { r with minFreq := x } ∧ (x ≠ f ∨ f + 1 = freqRange) := by
    rw [leaveMinFreq, lists.key]
    split_ifs with lowest
    · obtain ⟨x, ran, value⟩ := good.updateMinFreq lowest below next
      refine ⟨x, ran, good.setMin ?_, by omega⟩
      rcases value with ⟨rfl, room⟩ | ⟨rfl, last⟩
      · obtain ⟨_, node, found, _⟩ := next room
        exact Or.inr (Or.inr ⟨node, found⟩)
      · exact Or.inr (Or.inl last)
    · exact ⟨r.minFreq, rfl, good, Or.inl lowest⟩
  obtain ⟨x, ran, good', min⟩ := moved
  rw [LFUReplacer.dropEmpty]
  split_ifs with gone one
  · have empty := List.length_eq_zero_iff.mp (lists.count ▸ gone)
    rw [ran]
    exact ⟨_, rfl, good'.drop here empty (lists.key ▸ one) min, rfl⟩
  · rw [ran]
    exact ⟨_, rfl, good', rfl⟩
  · exact ⟨r, rfl, good, rfl⟩

/-- `cur->freq` and `cur->freq - 1` after the increment. -/
private theorem next_freq {g : ℕ} (below : f < freqRange) (next : (f + 1) % freqRange = g) :
    (g + (freqRange - 1)) % freqRange = f ∧ g ≠ f ∧ g < freqRange ∧ (f + 1 < freqRange → g = f + 1) := by
  simp only [freqRange] at *
  omega

/-- The frame leaves its node and enters the next one. -/
private theorem Good.hit {g : ℕ} {old : FreqNode} (good : Good r) (member : m ∈ r.map)
    (found : r.freqMap (r.freq m) = some (some old)) (next : (r.freq m + 1) % freqRange = g)
    (here : r.freqMap g = some (some node) ∨ r.freqMap g = none ∧ node = ⟨[], g, 0⟩) :
    ∃ r', ((({ r with
      freq := Function.update r.freq m g
      maxFreq := Max.max r.maxFreq g } : LFUReplacer).setNode (r.freq m) (old.remove m)).setNode g
        (node.append m)).dropEmpty (r.freq m) (old.remove m) = .ok r' ∧ Good r' ∧ r'.map = r.map := by
  obtain ⟨_, apart, small, step⟩ := next_freq (good.small m member) next
  have removed := good.remove member found
  have entry : Function.update r.freqMap (r.freq m) (some (some (old.remove m))) g = some (some node) ∨
      Function.update r.freqMap (r.freq m) (some (some (old.remove m))) g = none ∧ node = ⟨[], g, 0⟩ := by
    rwa [Function.update_of_ne apart]
  have added := removed.add (Finset.notMem_erase m r.map) small entry
  rw [show Insert.insert m (r.map.erase m) = r.map from Finset.insert_erase member] at added
  apply Good.dropEmpty
  · exact { added with max := max_lt good.max small }
  · simp only [setNode, Function.update_of_ne (Ne.symm apart), Function.update_self]
  · exact good.small m member
  · intro room
    rw [← step room]
    exact ⟨le_max_right .., node.append m, Function.update_self .., Nat.succ_pos _⟩

/-- What `Promote` does to a tracked frame. It meets a null node exactly where one lies under the next
count. -/
theorem Good.promote (good : Good r) (member : m ∈ r.map) :
    r.freqMap ((r.freq m + 1) % freqRange) = some none ∧ r.promote m = .error .nullNode ∨
      r.freqMap ((r.freq m + 1) % freqRange) ≠ some none ∧
        ∃ r', r.promote m = .ok (true, r') ∧ Good r' ∧ r'.map = r.map := by
  obtain ⟨old, found⟩ := good.grouped.known m member
  have oldNode : r.node (r.freq m) = .ok old := by simp only [LFUReplacer.node, found]
  generalize next : (r.freq m + 1) % freqRange = g
  obtain ⟨back, apart, _, _⟩ := next_freq (good.small m member) next
  rw [LFUReplacer.promote, if_pos member]
  simp only [next, back, oldNode, ok_bind]
  cases here : r.freqMap g with
  | none =>
    right
    obtain ⟨r', ran, good', map⟩ := good.hit member found next (Or.inr ⟨here, rfl⟩)
    refine ⟨nofun, r', ?_, good', map⟩
    simp only [newNode, setNode, Function.update_of_ne apart, here, ok_bind] at ran ⊢
    rw [ran]
    rfl
  | some entry =>
    cases entry with
    | none =>
      left
      refine ⟨rfl, ?_⟩
      simp only [newNode, setNode, Function.update_of_ne apart, here]
      rfl
    | some node =>
      right
      obtain ⟨r', ran, good', map⟩ := good.hit member found next (Or.inl here)
      refine ⟨nofun, r', ?_, good', map⟩
      simp only [newNode, setNode, Function.update_of_ne apart, here, ok_bind] at ran ⊢
      rw [ran]
      rfl

/-- Reading an absent key leaves a null node there. -/
theorem Good.null (good : Good r) (absent : r.freqMap f = none) (edge : f = 0 ∨ f + 1 = freqRange) :
    Good { r with freqMap := Function.update r.freqMap f (some none) } := by
  have kept : ∀ g, (∃ node, r.freqMap g = some (some node)) →
      ∃ node, Function.update r.freqMap f (some none) g = some (some node) := by
    rintro g ⟨node, found⟩
    have apart : g ≠ f := by
      rintro rfl
      rw [absent] at found
      cases found
    exact ⟨node, by rw [Function.update_of_ne apart, found]⟩
  refine ⟨good.grouped.null absent, kept 1 good.one, good.small, good.max, fun g found => ?_,
    good.min.imp_right (Or.imp_right (kept r.minFreq))⟩
  have found : Function.update r.freqMap f (some none) g = some none := found
  by_cases same : g = f
  · exact same ▸ edge
  · rw [Function.update_of_ne same] at found
    exact good.nulls g found

private theorem Good.refreshMinFreq (good : Good r) (ran : r.refreshMinFreq = .ok r') :
    Good r' ∧ r'.map = r.map := by
  unfold LFUReplacer.refreshMinFreq at ran
  split_ifs at ran with unset
  · obtain ⟨found, searched, ran⟩ := bind_eq_ok.mp ran
    cases ran
    cases found with
    | none => exact ⟨good.setMin (Or.inl unset), rfl⟩
    | some x => exact ⟨good.setMin (Or.inr (Or.inr (searchFreq_found searched))), rfl⟩
  · cases ran
    exact ⟨good, rfl⟩

/-- What `get_min_freq_node` finds is a node of the map, or nothing. -/
private theorem Good.minFreqNode {found : Option FreqNode} (good : Good r)
    (ran : r.minFreqNode = .ok (found, r')) : Good r' ∧ r'.map = r.map ∧
      ∀ node, found = some node → r'.freqMap r'.minFreq = some (some node) := by
  unfold LFUReplacer.minFreqNode at ran
  split_ifs at ran with one
  · obtain ⟨node, present⟩ := good.one
    simp only [LFUReplacer.node, present, ok_bind] at ran
    cases ran
    refine ⟨good, rfl, fun other same => ?_⟩
    rw [one, present, same]
  · obtain ⟨r₁, refreshed, ran⟩ := bind_eq_ok.mp ran
    obtain ⟨good₁, map⟩ := good.refreshMinFreq refreshed
    cases here : r₁.freqMap r₁.minFreq with
    | some entry =>
      simp only [here] at ran
      cases ran
      exact ⟨good₁, map, fun node same => by rw [here, same]⟩
    | none =>
      simp only [here] at ran
      cases ran
      refine ⟨good₁.null here ?_, map, nofun⟩
      rcases good₁.min with zero | last | ⟨node, present⟩
      · exact Or.inl zero
      · exact Or.inr last
      · rw [here] at present
        cases present

theorem Good.victim {taken : Option ℕ} (good : Good r) (ran : r.victim = .ok (taken, r')) :
    Good r' ∧ ∀ k ∈ r.map, taken ≠ some k → k ∈ r'.map := by
  obtain ⟨⟨found, r₁⟩, searched, ran⟩ := bind_eq_ok.mp ran
  obtain ⟨good₁, map, here⟩ := good.minFreqNode searched
  cases found with
  | none =>
    cases ran
    exact ⟨good₁, fun k inside _ => map.symm ▸ inside⟩
  | some minNode =>
    have present := here minNode rfl
    have lists := good₁.grouped.lists _ _ present
    dsimp only at ran
    split_ifs at ran with none
    · cases ran
      exact ⟨good₁, fun k inside _ => map.symm ▸ inside⟩
    · cases objs : minNode.objs with
      | nil =>
        simp only [objs] at ran
        cases ran
      | cons i rest =>
        simp only [objs] at ran
        obtain ⟨member, hits⟩ := (lists.mem i).mp (objs ▸ List.mem_cons_self ..)
        have removed := good₁.remove member (hits.symm ▸ present)
        rw [hits] at removed
        have others : ∀ k ∈ r.map, some i ≠ some k → k ∈ r₁.map.erase i := fun k inside other =>
          Finset.mem_erase.mpr ⟨by simpa [eq_comm] using other, map.symm ▸ inside⟩
        cases ran
        split_ifs
        · exact ⟨removed.setMin (Or.inl rfl), others⟩
        · exact ⟨removed, others⟩

theorem keeps : Keeps LFUReplacer Good fun r m => m ∈ r.map where
  constructed _ r made := by
    have made : r = new := made
    exact made ▸ good_new
  insert r r' m inserted good ran := good.insert ran
  promote r r' m promoted good ran := by
    have ran : r.promote m = .ok (promoted, r') := ran
    by_cases member : m ∈ r.map
    · rcases good.promote member with ⟨_, failed⟩ | ⟨_, after, returned, good', map⟩
      · rw [failed] at ran
        cases ran
      · rw [returned] at ran
        cases ran
        exact ⟨good', fun k inside => map ▸ inside⟩
    · rw [LFUReplacer.promote, if_neg member] at ran
      cases ran
      exact ⟨good, fun _ inside => inside⟩
  victim fuel r r' pt pt' taken good ran := by
    obtain ⟨⟨found, after⟩, searched, ran⟩ := bind_eq_ok.mp ran
    cases ran
    exact good.victim searched

/-- `Promote` of a tracked frame succeeds unless a null node lies under its next count. -/
theorem promotes : PromotesWhen LFUReplacer fun r m =>
    r.freqMap ((r.freq m + 1) % freqRange) ≠ some none := by
  apply keeps.promotesWhen
  intro r m good member
  rcases good.promote member with ⟨null, failed⟩ | ⟨clear, r', returned, _⟩
  · refine iff_of_false ?_ (not_not.mpr null)
    rintro ⟨r', returned⟩
    cases failed.symm.trans returned
  · exact iff_of_true ⟨r', returned⟩ clear

/-- That takes a count about to wrap around. -/
theorem Good.next_clear (good : Good r) (low : r.freq m + 2 < freqRange) :
    r.freqMap ((r.freq m + 1) % freqRange) ≠ some none := by
  intro null
  have wraps := good.nulls _ null
  simp only [freqRange] at *
  omega

end LFUReplacer

end Gbp
