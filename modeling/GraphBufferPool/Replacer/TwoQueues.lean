import GraphBufferPool.Lib.Ages
import GraphBufferPool.Replacer.Methods

/-! # The two queues of `TwoQLRUReplacer`

A new frame enters the inactive list, a promoted one the active list, each at the front; a map for each list has
the iterators of its frames. Here the lists have their nodes, so that an iterator can dangle: every frame is in one
list and in the map of that list, under the iterator of its node. A single `Victim` looks at the inactive list
from its back and then at the active one. The batch `Victim` takes the frames from there as they come.
-/

namespace Gbp

open Fuel

/-- A `std::list<mpage_id_type>`: its nodes from `begin()`, each with its address, which is the iterator, and its
value. -/
abbrev NodeList := List (ℕ × ℕ)

namespace NodeList

/-- `erase(it)`, which needs a node there. -/
def eraseNode (list : NodeList) (it : ℕ) : Except Stop NodeList :=
  if it ∈ list.map Prod.fst then .ok (list.filter fun node => node.1 ≠ it) else .error .nullNode

/-- The values from `begin()`. -/
def values (list : NodeList) : List ℕ := list.map Prod.snd

/-- The search of a `Victim`, through the nodes as they are passed. -/
def searchFrom (pt : PageTable) : NodeList → Except Stop (Option (ℕ × ℕ) × PageTable)
  | [] => .ok (none, pt)
  | node :: rest => do
    let (taken, table) ← pt.lockVictim node.2
    if taken then return (some node, table)
    else searchFrom table rest

end NodeList

namespace Heap

/-- `TwoQLRUReplacer`. The next node gets the address `fresh`. -/
structure TwoQLRUReplacer where
  activeList : NodeList
  inactiveList : NodeList
  activeMap : ℕ → Option ℕ
  inactiveMap : ℕ → Option ℕ
  fresh : ℕ

namespace TwoQLRUReplacer

/-- The constructor. -/
def new : TwoQLRUReplacer := ⟨[], [], fun _ => none, fun _ => none, 0⟩

/-- `activeList.push_front(page_id); activeMap[page_id] = activeList.begin()`. -/
def pushActive (r : TwoQLRUReplacer) (pageId : ℕ) : TwoQLRUReplacer :=
  { r with
    activeList := (r.fresh, pageId) :: r.activeList
    activeMap := Function.update r.activeMap pageId (some r.fresh)
    fresh := r.fresh + 1 }

/-- `Insert`. -/
def insert (r : TwoQLRUReplacer) (pageId : ℕ) : Bool × TwoQLRUReplacer :=
  if r.activeMap pageId ≠ none ∨ r.inactiveMap pageId ≠ none then (false, r)
  else (true, { r with
    inactiveList := (r.fresh, pageId) :: r.inactiveList
    inactiveMap := Function.update r.inactiveMap pageId (some r.fresh)
    fresh := r.fresh + 1 })

/-- `Promote`. -/
def promote (r : TwoQLRUReplacer) (pageId : ℕ) : Except Stop (Bool × TwoQLRUReplacer) :=
  match r.activeMap pageId with
  | some it => do
    let activeList ← r.activeList.eraseNode it
    return (true, { r with activeList := activeList }.pushActive pageId)
  | none =>
    match r.inactiveMap pageId with
    | some it => do
      let inactiveList ← r.inactiveList.eraseNode it
      return (true, { r with
        inactiveList := inactiveList
        inactiveMap := Function.update r.inactiveMap pageId none }.pushActive pageId)
    | none => return (false, r)

/-- `Victim`. -/
def victim (r : TwoQLRUReplacer) (pt : PageTable) : Except Stop (Option ℕ × TwoQLRUReplacer × PageTable) := do
  let (toEvict, table) ← NodeList.searchFrom pt r.inactiveList.reverse
  match toEvict with
  | some (it, pageId) =>
    let inactiveList ← r.inactiveList.eraseNode it
    return (some pageId, { r with
      inactiveList := inactiveList
      inactiveMap := Function.update r.inactiveMap pageId none }, table)
  | none =>
    let (toEvict, table) ← NodeList.searchFrom table r.activeList.reverse
    match toEvict with
    | some (it, pageId) =>
      let activeList ← r.activeList.eraseNode it
      return (some pageId, { r with
        activeList := activeList
        activeMap := Function.update r.activeMap pageId none }, table)
    | none => return (none, r, table)

/-- The batch `Victim`, which looks at no page. -/
def victims : ℕ → TwoQLRUReplacer → List ℕ → Bool × List ℕ × TwoQLRUReplacer
  | 0, r, mpageIds => (true, mpageIds, r)
  | pageNum + 1, r, mpageIds =>
    match r.inactiveList.getLast?, r.activeList.getLast? with
    | some (_, toEvict), _ => victims pageNum { r with
        inactiveList := r.inactiveList.dropLast
        inactiveMap := Function.update r.inactiveMap toEvict none } (mpageIds ++ [toEvict])
    | none, some (_, toEvict) => victims pageNum { r with
        activeList := r.activeList.dropLast
        activeMap := Function.update r.activeMap toEvict none } (mpageIds ++ [toEvict])
    | none, none => (false, mpageIds, r)

/-- `Erase`. -/
def erase (r : TwoQLRUReplacer) (pageId : ℕ) : Except Stop (Bool × TwoQLRUReplacer) :=
  match r.activeMap pageId with
  | some it => do
    let activeList ← r.activeList.eraseNode it
    return (true, { r with
      activeList := activeList
      activeMap := Function.update r.activeMap pageId none })
  | none =>
    match r.inactiveMap pageId with
    | some it => do
      let inactiveList ← r.inactiveList.eraseNode it
      return (true, { r with
        inactiveList := inactiveList
        inactiveMap := Function.update r.inactiveMap pageId none })
    | none => return (false, r)

instance : Policy TwoQLRUReplacer where
  Constructed _ r := r = new
  insert r m := .ok (r.insert m)
  promote := promote
  victim _ := victim

instance : FullPolicy TwoQLRUReplacer where
  erase := erase
  victims _ r pt mpageIds pageNum :=
    let (result, mpageIds, r) := r.victims pageNum mpageIds
    .ok (result, mpageIds, r, pt)

end TwoQLRUReplacer

end Heap

/-- A list and its map hold these frames: each has one node, and the map has the iterator of that node. -/
structure Indexed (list : NodeList) (map : ℕ → Option ℕ) (order : List ℕ) : Prop where
  values : list.values = order
  nodup : order.Nodup
  addresses : (list.map Prod.fst).Nodup
  points : ∀ k it, map k = some it ↔ (it, k) ∈ list

theorem indexed_nil : Indexed [] (fun _ => none) [] := ⟨rfl, .nil, .nil, by simp⟩

namespace Indexed

variable {list : NodeList} {map : ℕ → Option ℕ} {order : List ℕ} {k it fresh : ℕ}

theorem mem_iff (indexed : Indexed list map order) (k : ℕ) : k ∈ order ↔ ∃ it, map k = some it := by
  rw [← indexed.values, NodeList.values, List.mem_map]
  constructor
  · rintro ⟨⟨it, j⟩, member, rfl⟩
    exact ⟨it, (indexed.points j it).mpr member⟩
  · rintro ⟨it, here⟩
    exact ⟨(it, k), (indexed.points k it).mp here, rfl⟩

theorem eq_none_iff (indexed : Indexed list map order) (k : ℕ) : map k = none ↔ k ∉ order := by
  rw [indexed.mem_iff, Option.eq_none_iff_forall_ne_some, not_exists]

/-- The node of a frame is the only one at its address. -/
theorem address_iff (indexed : Indexed list map order) (here : map k = some it) {node : ℕ × ℕ} (member : node ∈ list) :
    node.1 = it ↔ node.2 = k := by
  obtain ⟨a, j⟩ := node
  have mine := (indexed.points k it).mp here
  constructor
  · rintro rfl
    exact congrArg Prod.snd (List.inj_on_of_nodup_map indexed.addresses member mine rfl)
  · rintro rfl
    have there := (indexed.points j a).mpr member
    rw [here] at there
    exact (Option.some.inj there).symm

/-- A frame enters at the front. -/
theorem push (indexed : Indexed list map order) (absent : k ∉ order) (unused : ∀ node ∈ list, node.1 ≠ fresh) :
    Indexed ((fresh, k) :: list) (Function.update map k (some fresh)) (k :: order) := by
  refine ⟨congrArg (k :: ·) indexed.values, List.nodup_cons.mpr ⟨absent, indexed.nodup⟩,
    List.nodup_cons.mpr ⟨?_, indexed.addresses⟩, fun j it => ?_⟩
  · intro member
    obtain ⟨node, inside, same⟩ := List.mem_map.mp member
    exact unused node inside same
  · by_cases same : j = k
    · subst same
      have outside : (it, j) ∉ list := fun member =>
        absent ((indexed.mem_iff j).mpr ⟨it, (indexed.points j it).mpr member⟩)
      simp [outside, eq_comm]
    · rw [Function.update_of_ne same, indexed.points]
      simp [same]

/-- `erase` of the iterator in the map finds the node, and the frame leaves. -/
theorem erase (indexed : Indexed list map order) (here : map k = some it) :
    ∃ rest, list.eraseNode it = .ok rest ∧ (∀ node ∈ rest, node ∈ list) ∧
      Indexed rest (Function.update map k none) (order.erase k) := by
  have mine := (indexed.points k it).mp here
  have found : it ∈ list.map Prod.fst := List.mem_map.mpr ⟨_, mine, rfl⟩
  refine ⟨_, if_pos found, fun node => List.mem_of_mem_filter, ?_, indexed.nodup.erase k,
    indexed.addresses.sublist ((List.filter_sublist ..).map _), fun j a => ?_⟩
  · have same : list.filter (fun node => node.1 ≠ it) = list.filter ((fun j => j ≠ k) ∘ Prod.snd) := by
      refine List.filter_congr fun node member => ?_
      simp [indexed.address_iff here member]
    rw [NodeList.values, same, ← List.filter_map, ← NodeList.values, indexed.values, indexed.nodup.erase_eq_filter]
    refine List.filter_congr fun j _ => ?_
    rw [Bool.eq_iff_iff]
    simp
  · rw [List.mem_filter]
    by_cases same : j = k
    · subst same
      rw [Function.update_self]
      refine iff_of_false (by simp) fun both => ?_
      have other : a ≠ it := by simpa using both.2
      exact other ((indexed.address_iff here both.1).mpr rfl)
    · rw [Function.update_of_ne same, indexed.points]
      refine (and_iff_left_of_imp fun member => ?_).symm
      simpa using (indexed.address_iff here member).not.mpr same

end Indexed

variable {list : NodeList} {map : ℕ → Option ℕ} {order inactive active : List ℕ} {pt : PageTable} {m : ℕ}

theorem NodeList.searchFrom_eq (inOrder : ∀ node ∈ list, pt.InOrder node.2) : NodeList.searchFrom pt list =
    .ok (list.find? fun node => pt.Evictable node.2, pt.lockFound (list.values.find? pt.Evictable)) := by
  induction list with
  | nil => rfl
  | cons node rest ih =>
    rw [NodeList.searchFrom, List.find?_cons, NodeList.values, List.map_cons, List.find?_cons]
    by_cases here : pt.Evictable node.2
    · rw [here.lockVictim]
      simp [here, ok_bind, PageTable.lockFound, pure, Except.pure]
    · rw [(inOrder node (List.mem_cons_self ..)).lockVictim here]
      simp only [here, decide_false, ok_bind, Bool.false_eq_true, if_false]
      exact ih fun other member => inOrder other (List.mem_cons_of_mem _ member)

/-- The search from the back of a list finds the node of the last evictable frame. -/
theorem Indexed.search (indexed : Indexed list map order) (inOrder : ∀ m ∈ order, pt.InOrder m) :
    ∃ found : Option (ℕ × ℕ), NodeList.searchFrom pt list.reverse =
        .ok (found, pt.lockFound (order.reverse.find? pt.Evictable)) ∧
      found.map Prod.snd = order.reverse.find? pt.Evictable ∧ ∀ node ∈ found, map node.2 = some node.1 := by
  have values : NodeList.values list.reverse = order.reverse := by
    rw [NodeList.values, List.map_reverse, ← NodeList.values, indexed.values]
  refine ⟨list.reverse.find? fun node => pt.Evictable node.2, ?_, ?_, fun node found => ?_⟩
  · rw [← values]
    refine NodeList.searchFrom_eq fun node member => inOrder node.2 ?_
    rw [← indexed.values]
    exact List.mem_map.mpr ⟨node, List.mem_reverse.mp member, rfl⟩
  · rw [← values, NodeList.values, List.find?_map]
    rfl
  · exact (indexed.points node.2 node.1).mpr (List.mem_reverse.mp (List.mem_of_find?_eq_some found))

/-- When the frames of the inactive list were inserted, and those of the active list promoted. -/
structure TwoAges where
  inactive : Ages ℕ
  active : Ages ℕ

namespace TwoAges

/-- Nothing is tracked. -/
def start : TwoAges := ⟨.start, .start⟩

def Tracks (q : TwoAges) (m : ℕ) : Prop := m ∈ q.inactive.present ∨ m ∈ q.active.present

instance (q : TwoAges) (m : ℕ) : Decidable (q.Tracks m) := inferInstanceAs (Decidable (_ ∨ _))

def forget (q : TwoAges) (gone : List ℕ) : TwoAges := ⟨q.inactive.forget gone, q.active.forget gone⟩

/-- The oldest of the inactive frames that have the property, else the oldest of the active ones. -/
def FirstOf (q : TwoAges) (p : ℕ → Prop) (taken : Option ℕ) : Prop :=
  (∃ m, taken = some m ∧ q.inactive.Oldest p m) ∨ (∀ m ∈ q.inactive.present, ¬ p m) ∧ q.active.FirstOf p taken

end TwoAges

/-- The contract of `TwoQLRUReplacer`. -/
def twoQContract : Contract TwoAges ReplacerCall ReplacerAnswer where
  Allowed q
    | .victim pt => ∀ m, q.Tracks m → pt.InOrder m
    | .victims .. => False
    | _ => True
  Answers q
    | .insert m, answer => answer = .returned (decide (¬ q.Tracks m))
    | .promote m, answer | .erase m, answer => answer = .returned (decide (q.Tracks m))
    | .victim pt, answer => ∃ taken, q.FirstOf pt.Evictable taken ∧ answer = .victim taken (pt.lockFound taken)
    | .victims .., _ => False
  after q
    | .insert m, _ => if q.Tracks m then q else { q with inactive := q.inactive.touch m }
    | .promote m, _ => if q.Tracks m then ⟨q.inactive.forget [m], q.active.touch m⟩ else q
    | .erase m, _ => q.forget [m]
    | .victim _, .victim taken _ => q.forget taken.toList
    | _, _ => q

namespace Heap.TwoQLRUReplacer

/-- Every tracked frame is in one list and in the map of that list. -/
structure Holds (r : TwoQLRUReplacer) (inactive active : List ℕ) : Prop where
  inactiveIndexed : Indexed r.inactiveList r.inactiveMap inactive
  activeIndexed : Indexed r.activeList r.activeMap active
  disjoint : ∀ m ∈ inactive, m ∉ active

/-- The replacer, with the frames of its lists in the order of their ages. -/
structure AgeOrdered (q : TwoAges) (r : TwoQLRUReplacer) (inactive active : List ℕ) : Prop extends
    Holds r inactive active where
  inactiveOrdered : q.inactive.Ordered inactive
  activeOrdered : q.active.Ordered active
  inactiveBelow : ∀ node ∈ r.inactiveList, node.1 < r.fresh
  activeBelow : ∀ node ∈ r.activeList, node.1 < r.fresh

variable {q : TwoAges} {r : TwoQLRUReplacer}

namespace AgeOrdered

theorem new : AgeOrdered .start TwoQLRUReplacer.new [] [] where
  inactiveIndexed := indexed_nil
  activeIndexed := indexed_nil
  disjoint := by simp
  inactiveOrdered := Ages.ordered_start
  activeOrdered := Ages.ordered_start
  inactiveBelow := by simp [TwoQLRUReplacer.new]
  activeBelow := by simp [TwoQLRUReplacer.new]

theorem tracks_iff (keeps : AgeOrdered q r inactive active) (m : ℕ) : q.Tracks m ↔ m ∈ inactive ∨ m ∈ active := by
  rw [TwoAges.Tracks, keeps.inactiveOrdered.mem, keeps.activeOrdered.mem]

theorem insert (keeps : AgeOrdered q r inactive active) (absent : ¬ q.Tracks m) :
    ∃ r', r.insert m = (true, r') ∧ AgeOrdered { q with inactive := q.inactive.touch m } r' (m :: inactive) active := by
  obtain ⟨notInactive, notActive⟩ := not_or.mp ((keeps.tracks_iff m).not.mp absent)
  have maps : ¬ (r.activeMap m ≠ none ∨ r.inactiveMap m ≠ none) := by
    simp [keeps.activeIndexed.eq_none_iff, keeps.inactiveIndexed.eq_none_iff, notInactive, notActive]
  have touched := keeps.inactiveOrdered.touch m
  rw [List.erase_of_not_mem notInactive] at touched
  refine ⟨_, if_neg maps, ⟨keeps.inactiveIndexed.push notInactive fun node member => (keeps.inactiveBelow node member).ne,
    keeps.activeIndexed, ?_⟩, touched, keeps.activeOrdered, ?_, fun node member => ?_⟩
  · intro k member
    rcases List.mem_cons.mp member with rfl | earlier
    · exact notActive
    · exact keeps.disjoint k earlier
  · intro node member
    rcases List.mem_cons.mp member with rfl | earlier
    · exact Nat.lt_succ_self _
    · exact (keeps.inactiveBelow node earlier).trans (Nat.lt_succ_self _)
  · exact (keeps.activeBelow node member).trans (Nat.lt_succ_self _)

/-- A frame that is out of the lists enters the active one. -/
theorem pushActive (keeps : AgeOrdered q r inactive active) (notInactive : m ∉ inactive) (notActive : m ∉ active) :
    AgeOrdered { q with active := q.active.touch m } (r.pushActive m) inactive (m :: active) := by
  have touched := keeps.activeOrdered.touch m
  rw [List.erase_of_not_mem notActive] at touched
  refine ⟨⟨keeps.inactiveIndexed, keeps.activeIndexed.push notActive fun node member => (keeps.activeBelow node member).ne, ?_⟩,
    keeps.inactiveOrdered, touched, fun node member => ?_, ?_⟩
  · intro k member
    refine List.not_mem_cons_of_ne_of_not_mem ?_ (keeps.disjoint k member)
    rintro rfl
    exact notInactive member
  · exact (keeps.inactiveBelow node member).trans (Nat.lt_succ_self _)
  · intro node member
    rcases List.mem_cons.mp member with rfl | earlier
    · exact Nat.lt_succ_self _
    · exact (keeps.activeBelow node earlier).trans (Nat.lt_succ_self _)

/-- A frame leaves the inactive list. -/
theorem dropInactive {it : ℕ} (keeps : AgeOrdered q r inactive active) (here : r.inactiveMap m = some it) :
    ∃ rest, r.inactiveList.eraseNode it = .ok rest ∧ AgeOrdered (q.forget [m]) { r with
      inactiveList := rest
      inactiveMap := Function.update r.inactiveMap m none } (inactive.erase m) active := by
  obtain ⟨rest, ran, part, indexed⟩ := keeps.inactiveIndexed.erase here
  have member := (keeps.inactiveIndexed.mem_iff m).mpr ⟨it, here⟩
  have elsewhere := (keeps.activeOrdered.mem m).not.mp (keeps.disjoint m member)
  refine ⟨rest, ran, ⟨indexed, keeps.activeIndexed, fun k later => keeps.disjoint k (List.mem_of_mem_erase later)⟩,
    keeps.inactiveOrdered.forget_one m, ?_, fun node later => keeps.inactiveBelow node (part node later),
    keeps.activeBelow⟩
  rw [TwoAges.forget, Ages.forget_of_notMem elsewhere]
  exact keeps.activeOrdered

/-- A frame leaves the active list. -/
theorem dropActive {it : ℕ} (keeps : AgeOrdered q r inactive active) (here : r.activeMap m = some it) :
    ∃ rest, r.activeList.eraseNode it = .ok rest ∧ AgeOrdered (q.forget [m]) { r with
      activeList := rest
      activeMap := Function.update r.activeMap m none } inactive (active.erase m) := by
  obtain ⟨rest, ran, part, indexed⟩ := keeps.activeIndexed.erase here
  have member := (keeps.activeIndexed.mem_iff m).mpr ⟨it, here⟩
  have elsewhere := (keeps.inactiveOrdered.mem m).not.mp fun there => keeps.disjoint m there member
  refine ⟨rest, ran, ⟨keeps.inactiveIndexed, indexed, fun k earlier later =>
    keeps.disjoint k earlier (List.mem_of_mem_erase later)⟩, ?_, keeps.activeOrdered.forget_one m, keeps.inactiveBelow,
    fun node later => keeps.activeBelow node (part node later)⟩
  rw [TwoAges.forget, Ages.forget_of_notMem elsewhere]
  exact keeps.inactiveOrdered

theorem promote (keeps : AgeOrdered q r inactive active) (tracked : q.Tracks m) :
    ∃ r' inactive' active', r.promote m = .ok (true, r') ∧
      AgeOrdered ⟨q.inactive.forget [m], q.active.touch m⟩ r' inactive' active' := by
  rw [TwoQLRUReplacer.promote]
  cases here : r.activeMap m with
  | some it =>
    obtain ⟨rest, ran, dropped⟩ := keeps.dropActive here
    have member := (keeps.activeIndexed.mem_iff m).mpr ⟨it, here⟩
    have pushed := dropped.pushActive (fun there => keeps.disjoint m there member) keeps.activeIndexed.nodup.not_mem_erase
    rw [TwoAges.forget, Ages.touch_forget] at pushed
    refine ⟨_, inactive, m :: active.erase m, by simp only [ran, ok_bind]; rfl, ?_⟩
    simpa only [TwoQLRUReplacer.pushActive, Function.update_idem] using pushed
  | none =>
    have notActive := (keeps.activeIndexed.eq_none_iff m).mp here
    have member := ((keeps.tracks_iff m).mp tracked).resolve_right notActive
    obtain ⟨it, found⟩ := (keeps.inactiveIndexed.mem_iff m).mp member
    obtain ⟨rest, ran, dropped⟩ := keeps.dropInactive found
    have pushed := dropped.pushActive keeps.inactiveIndexed.nodup.not_mem_erase notActive
    rw [TwoAges.forget, Ages.touch_forget] at pushed
    exact ⟨_, _, _, by simp only [found, ran, ok_bind]; rfl, pushed⟩

theorem erase (keeps : AgeOrdered q r inactive active) (tracked : q.Tracks m) :
    ∃ r' inactive' active', r.erase m = .ok (true, r') ∧ AgeOrdered (q.forget [m]) r' inactive' active' := by
  rw [TwoQLRUReplacer.erase]
  cases here : r.activeMap m with
  | some it =>
    obtain ⟨rest, ran, dropped⟩ := keeps.dropActive here
    exact ⟨_, _, _, by simp only [ran, ok_bind]; rfl, dropped⟩
  | none =>
    have member := ((keeps.tracks_iff m).mp tracked).resolve_right ((keeps.activeIndexed.eq_none_iff m).mp here)
    obtain ⟨it, found⟩ := (keeps.inactiveIndexed.mem_iff m).mp member
    obtain ⟨rest, ran, dropped⟩ := keeps.dropInactive found
    exact ⟨_, _, _, by simp only [found, ran, ok_bind]; rfl, dropped⟩

/-- Nothing happens to a frame that is not tracked. -/
theorem refuses (keeps : AgeOrdered q r inactive active) (absent : ¬ q.Tracks m) :
    r.promote m = .ok (false, r) ∧ r.erase m = .ok (false, r) := by
  obtain ⟨notInactive, notActive⟩ := not_or.mp ((keeps.tracks_iff m).not.mp absent)
  have first := (keeps.activeIndexed.eq_none_iff m).mpr notActive
  have second := (keeps.inactiveIndexed.eq_none_iff m).mpr notInactive
  rw [TwoQLRUReplacer.promote, TwoQLRUReplacer.erase, first, second]
  exact ⟨rfl, rfl⟩

theorem insert_tracked (keeps : AgeOrdered q r inactive active) (tracked : q.Tracks m) : r.insert m = (false, r) := by
  refine if_pos ?_
  rcases (keeps.tracks_iff m).mp tracked with member | member
  · exact Or.inr ((keeps.inactiveIndexed.eq_none_iff m).not.mpr (not_not.mpr member))
  · exact Or.inl ((keeps.activeIndexed.eq_none_iff m).not.mpr (not_not.mpr member))

/-- A `Victim` takes the oldest evictable inactive frame, else the oldest evictable active one. Where there is none it
changes nothing. -/
theorem victim (keeps : AgeOrdered q r inactive active) (inOrder : ∀ m, q.Tracks m → pt.InOrder m) :
    ∃ taken r' inactive' active', r.victim pt = .ok (taken, r', pt.lockFound taken) ∧ q.FirstOf pt.Evictable taken ∧
      AgeOrdered (q.forget taken.toList) r' inactive' active' ∧ (taken = none → r' = r) := by
  obtain ⟨found, search, value, points⟩ := keeps.inactiveIndexed.search fun m member =>
    inOrder m ((keeps.tracks_iff m).mpr (Or.inl member))
  have first := keeps.inactiveOrdered.firstOf (p := pt.Evictable)
  rw [← value] at search first
  rw [TwoQLRUReplacer.victim, search, ok_bind]
  cases found with
  | some node =>
    obtain ⟨rest, ran, dropped⟩ := keeps.dropInactive (points node rfl)
    refine ⟨some node.2, _, _, _, ?_, Or.inl ⟨node.2, rfl, first⟩, dropped, by simp⟩
    dsimp only
    rw [ran, ok_bind]
    rfl
  | none =>
    obtain ⟨found, search', value', points'⟩ := keeps.activeIndexed.search fun m member =>
      inOrder m ((keeps.tracks_iff m).mpr (Or.inr member))
    have second := keeps.activeOrdered.firstOf (p := pt.Evictable)
    rw [← value'] at search' second
    dsimp only [Option.map_none, PageTable.lockFound]
    rw [search', ok_bind]
    cases found with
    | some node =>
      obtain ⟨rest, ran, dropped⟩ := keeps.dropActive (points' node rfl)
      refine ⟨some node.2, _, _, _, ?_, Or.inr ⟨first, second⟩, dropped, by simp⟩
      dsimp only
      rw [ran, ok_bind]
      rfl
    | none =>
      refine ⟨none, r, inactive, active, rfl, Or.inr ⟨first, second⟩, ?_, fun _ => rfl⟩
      rw [TwoAges.forget, Option.toList_none, Ages.forget_nil, Ages.forget_nil]
      exact keeps

end AgeOrdered

/-- A call returns; a `Victim` that finds no frame leaves the lists and maps alone. -/
def Answers (r : TwoQLRUReplacer) (call : ReplacerCall) (answer : ReplacerAnswer) (r' : TwoQLRUReplacer) : Prop :=
  Answered r call answer r' ∧ ∀ pt, answer = .victim none pt → r' = r

/-- In every run each tracked frame is in one of the two lists and in the map of that list, under the iterator of its
node, and the answers are the ones of the contract. -/
theorem twoQ_replacer_meets (calls : List ReplacerCall) : twoQContract.Meets Answers
    (fun q r => ∃ inactive active, r.Holds inactive active ∧ q.inactive.Ordered inactive ∧ q.active.Ordered active)
    .start new calls := by
  refine Contract.meets_of_invariant (fun q r => ∃ inactive active, AgeOrdered q r inactive active) ?_ ?_
    ⟨[], [], .new⟩ calls
  · rintro q r ⟨inactive, active, keeps⟩
    exact ⟨inactive, active, keeps.toHolds, keeps.inactiveOrdered, keeps.activeOrdered⟩
  · rintro q r call ⟨inactive, active, keeps⟩ allowed
    cases call with
    | insert m =>
      by_cases tracked : q.Tracks m
      · refine ⟨.returned false, r, ⟨.insert (congrArg Except.ok (keeps.insert_tracked tracked)), by simp⟩, ?_, ?_⟩
        · simp [twoQContract, tracked]
        · simpa only [twoQContract, if_pos tracked] using ⟨inactive, active, keeps⟩
      · obtain ⟨r', ran, next⟩ := keeps.insert tracked
        refine ⟨.returned true, r', ⟨.insert (congrArg Except.ok ran), by simp⟩, ?_, ?_⟩
        · simp [twoQContract, tracked]
        · simpa only [twoQContract, if_neg tracked] using ⟨_, _, next⟩
    | promote m =>
      by_cases tracked : q.Tracks m
      · obtain ⟨r', inactive', active', ran, next⟩ := keeps.promote tracked
        refine ⟨.returned true, r', ⟨.promote ran, by simp⟩, ?_, ?_⟩
        · simp [twoQContract, tracked]
        · simpa only [twoQContract, if_pos tracked] using ⟨_, _, next⟩
      · refine ⟨.returned false, r, ⟨.promote (keeps.refuses tracked).1, by simp⟩, ?_, ?_⟩
        · simp [twoQContract, tracked]
        · simpa only [twoQContract, if_neg tracked] using ⟨inactive, active, keeps⟩
    | erase m =>
      by_cases tracked : q.Tracks m
      · obtain ⟨r', inactive', active', ran, next⟩ := keeps.erase tracked
        refine ⟨.returned true, r', ⟨.erase ran, by simp⟩, ?_, _, _, next⟩
        simp [twoQContract, tracked]
      · refine ⟨.returned false, r, ⟨.erase (keeps.refuses tracked).2, by simp⟩, ?_, ?_⟩
        · simp [twoQContract, tracked]
        · have same : q.forget [m] = q := by
            obtain ⟨notInactive, notActive⟩ := not_or.mp tracked
            rw [TwoAges.forget, Ages.forget_of_notMem notInactive, Ages.forget_of_notMem notActive]
          simpa only [twoQContract, same] using ⟨inactive, active, keeps⟩
    | victim pt =>
      obtain ⟨taken, r', inactive', active', ran, first, next, same⟩ := keeps.victim allowed
      refine ⟨.victim taken (pt.lockFound taken), r', ⟨.victim ⟨0, fun _ _ => ran⟩, ?_⟩, ⟨taken, first, rfl⟩, _, _, next⟩
      intro table none
      cases none
      exact same rfl
    | victims => exact allowed.elim

end Heap.TwoQLRUReplacer

end Gbp
