import GraphBufferPool.Lib.Ages
import GraphBufferPool.Replacer.LFU
import GraphBufferPool.Replacer.Methods

/-! # Least frequently used first

The contract of an LFU replacer, in terms of how often each tracked frame was used and when it came to that number,
and that `LFUReplacer` meets it as long as no counter wraps around. Every list is in the order in which its
frames came to their number of uses, because they enter at the tail; and `min_freq` is the least number of
uses, or 0 for a number that is yet to be searched for.
-/

namespace Gbp

/-- The tracked frames, when each came to its number of uses, and this number. -/
structure Tally where
  ages : Ages ℕ
  uses : ℕ → ℕ

namespace Tally

/-- Nothing is tracked. -/
def start : Tally := ⟨.start, fun _ => 0⟩

/-- The frame comes to a number of uses. -/
def reach (tally : Tally) (k n : ℕ) : Tally := ⟨tally.ages.touch k, Function.update tally.uses k n⟩

def forget (tally : Tally) (gone : List ℕ) : Tally := { tally with ages := tally.ages.forget gone }

/-- The tracked frame with the fewest uses, and of those the one that came to their number first. -/
structure Least (tally : Tally) (k : ℕ) : Prop where
  present : k ∈ tally.ages.present
  first : ∀ j ∈ tally.ages.present, j ≠ k → tally.uses k < tally.uses j ∨
    tally.uses k = tally.uses j ∧ tally.ages.touched k < tally.ages.touched j

end Tally

/-- The contract of an LFU replacer whose counters have 32 bits. -/
def lfuContract : Contract Tally ReplacerCall ReplacerAnswer where
  Allowed tally
    | .promote m => m ∈ tally.ages.present → tally.uses m + 1 < freqRange
    | .victims .. => False
    | _ => True
  Answers tally
    | .insert m, answer => answer = .returned (decide (m ∉ tally.ages.present))
    | .promote m, answer | .erase m, answer => answer = .returned (decide (m ∈ tally.ages.present))
    | .victim pt, answer => (∃ m, tally.Least m ∧ answer = .victim (some m) pt) ∨
        tally.ages.present = ∅ ∧ answer = .victim none pt
    | .victims .., _ => False
  after tally
    | .insert m, _ => if m ∈ tally.ages.present then tally else tally.reach m 1
    | .promote m, _ => if m ∈ tally.ages.present then tally.reach m (tally.uses m + 1) else tally
    | .erase m, _ => tally.forget [m]
    | .victim _, .victim taken _ => tally.forget taken.toList
    | _, _ => tally

namespace LFUReplacer

instance : FullPolicy LFUReplacer where
  erase := erase
  victims _ _ _ _ _ := .error .assertion

theorem Grouped.congr {map : Finset ℕ} {freq uses : ℕ → ℕ} {freqMap : ℕ → Option (Option FreqNode)}
    (grouped : Grouped map freq freqMap) (same : ∀ k ∈ map, freq k = uses k) : Grouped map uses freqMap where
  lists f node found := by
    have lists := grouped.lists f node found
    refine ⟨lists.key, lists.count, lists.distinct, fun k => (lists.mem k).trans (and_congr_right fun member => ?_)⟩
    rw [same k member]
  known k member := same k member ▸ grouped.known k member

/-- Each list is in the order of these times. -/
def Arrived (touched : ℕ → ℕ) (freqMap : ℕ → Option (Option FreqNode)) : Prop :=
  ∀ f node, freqMap f = some (some node) → node.objs.Pairwise fun k j => touched k < touched j

variable {map : Finset ℕ} {freq touched : ℕ → ℕ} {freqMap : ℕ → Option (Option FreqNode)} {m f now : ℕ}
  {node : FreqNode}

/-- Another node under a key. -/
theorem Arrived.store (arrived : Arrived touched freqMap)
    (sorted : node.objs.Pairwise fun k j => touched k < touched j) :
    Arrived touched (Function.update freqMap f (some (some node))) := by
  intro g other found
  by_cases same : g = f
  · subst same
    rw [Function.update_self] at found
    cases found
    exact sorted
  · rw [Function.update_of_ne same] at found
    exact arrived g other found

/-- No node under a key. -/
theorem Arrived.clear {entry : Option (Option FreqNode)} (arrived : Arrived touched freqMap)
    (none : ∀ node, entry ≠ some (some node)) : Arrived touched (Function.update freqMap f entry) := by
  intro g other found
  by_cases same : g = f
  · subst same
    rw [Function.update_self] at found
    exact absurd found (none other)
  · rw [Function.update_of_ne same] at found
    exact arrived g other found

/-- The time of a frame that is in no list. -/
theorem Arrived.touch (arrived : Arrived touched freqMap) (grouped : Grouped map freq freqMap) (fresh : m ∉ map) :
    Arrived (Function.update touched m now) freqMap := by
  intro f node found
  have other {k : ℕ} (member : k ∈ node.objs) : k ≠ m := by
    rintro rfl
    exact fresh (((grouped.lists f node found).mem k).mp member).1
  refine (arrived f node found).imp_of_mem fun {k j} first second before => ?_
  rwa [Function.update_of_ne (other first), Function.update_of_ne (other second)]

/-- A frame enters at the tail of its list. -/
theorem Arrived.append (arrived : Arrived touched freqMap) (grouped : Grouped map freq freqMap) (fresh : m ∉ map)
    (past : ∀ k ∈ map, touched k < now)
    (here : freqMap f = some (some node) ∨ freqMap f = none ∧ node = ⟨[], f, 0⟩) :
    Arrived (Function.update touched m now) (Function.update freqMap f (some (some (node.append m)))) := by
  refine (arrived.touch grouped fresh).store ?_
  have old : node.objs.Pairwise (fun k j => Function.update touched m now k < Function.update touched m now j) ∧
      ∀ k ∈ node.objs, k ∈ map := by
    rcases here with found | ⟨_, rfl⟩
    · exact ⟨arrived.touch grouped fresh f node found, fun k member => (((grouped.lists f node found).mem k).mp member).1⟩
    · exact ⟨.nil, by simp⟩
  refine List.pairwise_append.mpr ⟨old.1, List.pairwise_singleton .., fun k member j single => ?_⟩
  have known := old.2 k member
  have apart : k ≠ m := fun same => fresh (same ▸ known)
  rw [List.mem_singleton.mp single, Function.update_self, Function.update_of_ne apart]
  exact past k known

/-- The head of a list came to its number of uses first. -/
theorem Arrived.first (arrived : Arrived touched freqMap) (found : freqMap f = some (some node)) {i : ℕ}
    {rest : List ℕ} (objs : node.objs = i :: rest) : ∀ j ∈ node.objs, j ≠ i → touched i < touched j := by
  intro j member apart
  have sorted := arrived f node found
  rw [objs] at sorted member
  exact (List.pairwise_cons.mp sorted).1 j ((List.mem_cons.mp member).resolve_left apart)

/-- The lists of the tracked frames, with the time at which each came to its number of uses. -/
structure Filed (touched : ℕ → ℕ) (now : ℕ) (map : Finset ℕ) (freq : ℕ → ℕ)
    (freqMap : ℕ → Option (Option FreqNode)) : Prop where
  grouped : Grouped map freq freqMap
  arrived : Arrived touched freqMap
  past : ∀ k ∈ map, touched k < now
  positive : ∀ k ∈ map, 0 < freq k
  one : ∃ node, freqMap 1 = some (some node)
  nulls : ∀ f, freqMap f = some none → f = 0

/-- A key with a node keeps having one where another node is stored. -/
theorem exists_store {g : ℕ} (node : FreqNode) (present : ∃ node, freqMap f = some (some node)) :
    ∃ other, Function.update freqMap g (some (some node)) f = some (some other) := by
  by_cases same : f = g
  · subst same
    exact ⟨node, Function.update_self ..⟩
  · rw [Function.update_of_ne same]
    exact present

theorem nulls_store {g : ℕ} (nulls : ∀ f, freqMap f = some none → f = 0)
    (found : Function.update freqMap g (some (some node)) f = some none) : f = 0 := by
  by_cases same : f = g
  · subst same
    rw [Function.update_self] at found
    cases found
  · rw [Function.update_of_ne same] at found
    exact nulls f found

namespace Filed

/-- A frame leaves its list. -/
theorem remove (filed : Filed touched now map freq freqMap) (member : m ∈ map)
    (here : freqMap (freq m) = some (some node)) :
    Filed touched now (map.erase m) freq (Function.update freqMap (freq m) (some (some (node.remove m)))) where
  grouped := filed.grouped.remove member here
  arrived := filed.arrived.store ((filed.arrived _ node here).sublist List.erase_sublist)
  past k later := filed.past k (Finset.mem_of_mem_erase later)
  positive k later := filed.positive k (Finset.mem_of_mem_erase later)
  one := exists_store _ filed.one
  nulls _ found := nulls_store filed.nulls found

/-- A frame comes to `f` uses. -/
theorem add (filed : Filed touched now map freq freqMap) (fresh : m ∉ map) (positive : 0 < f)
    (here : freqMap f = some (some node) ∨ freqMap f = none ∧ node = ⟨[], f, 0⟩) :
    Filed (Function.update touched m now) (now + 1) (Insert.insert m map) (Function.update freq m f)
      (Function.update freqMap f (some (some (node.append m)))) where
  grouped := filed.grouped.add fresh here
  arrived := filed.arrived.append filed.grouped fresh filed.past here
  past k member := by
    by_cases same : k = m
    · simp [same]
    · rw [Function.update_of_ne same]
      exact (filed.past k ((Finset.mem_insert.mp member).resolve_left same)).trans (Nat.lt_succ_self now)
  positive k member := by
    by_cases same : k = m
    · simpa [same] using positive
    · rw [Function.update_of_ne same]
      exact filed.positive k ((Finset.mem_insert.mp member).resolve_left same)
  one := exists_store _ filed.one
  nulls _ found := nulls_store filed.nulls found

/-- An empty list may go. -/
theorem drop (filed : Filed touched now map freq freqMap) (here : freqMap f = some (some node))
    (empty : node.objs = []) (other : f ≠ 1) : Filed touched now map freq (Function.update freqMap f none) where
  grouped := filed.grouped.drop here empty
  arrived := filed.arrived.clear (by simp)
  past := filed.past
  positive := filed.positive
  one := by
    rw [Function.update_of_ne (Ne.symm other)]
    exact filed.one
  nulls g found := by
    by_cases same : g = f
    · subst same
      rw [Function.update_self] at found
      cases found
    · rw [Function.update_of_ne same] at found
      exact filed.nulls g found

/-- Reading the absent key 0 leaves a null node there. -/
theorem null (filed : Filed touched now map freq freqMap) (absent : freqMap 0 = none) :
    Filed touched now map freq (Function.update freqMap 0 (some none)) where
  grouped := filed.grouped.null absent
  arrived := filed.arrived.clear (by simp)
  past := filed.past
  positive := filed.positive
  one := by
    rw [Function.update_of_ne Nat.one_ne_zero]
    exact filed.one
  nulls g found := by
    by_cases same : g = 0
    · exact same
    · rw [Function.update_of_ne same] at found
      exact filed.nulls g found

/-- A list is empty exactly where no frame has its number of uses. -/
theorem nObj_pos_iff (filed : Filed touched now map freq freqMap) (here : freqMap f = some (some node)) :
    0 < node.nObj ↔ ∃ k ∈ map, freq k = f := by
  have lists := filed.grouped.lists f node here
  rw [lists.count, List.length_pos_iff_exists_mem]
  exact exists_congr lists.mem

end Filed

/-- The search looks at the lists in their order, up to the first one that is not empty. -/
theorem searchFreq_eq {keys : List ℕ} (nulls : ∀ f ∈ keys, freqMap f ≠ some none) (sorted : keys.Pairwise (· < ·)) :
    ∃ found, searchFreq freqMap keys = .ok found ∧
      (∀ x ∈ found, x ∈ keys ∧ ∃ node, freqMap x = some (some node) ∧ 0 < node.nObj) ∧
      ∀ f ∈ keys, (∀ x ∈ found, f < x) → ∀ node, freqMap f = some (some node) → node.nObj = 0 := by
  induction keys with
  | nil => exact ⟨none, rfl, by simp, by simp⟩
  | cons g rest ih =>
    obtain ⟨before, sorted⟩ := List.pairwise_cons.mp sorted
    obtain ⟨found, ran, hit, missed⟩ := ih (fun f later => nulls f (List.mem_cons_of_mem _ later)) sorted
    have skips (empty : ∀ node, freqMap g = some (some node) → node.nObj = 0)
        (ran : searchFreq freqMap (g :: rest) = .ok found) : ∃ found, searchFreq freqMap (g :: rest) = .ok found ∧
          (∀ x ∈ found, x ∈ g :: rest ∧ ∃ node, freqMap x = some (some node) ∧ 0 < node.nObj) ∧
          ∀ f ∈ g :: rest, (∀ x ∈ found, f < x) → ∀ node, freqMap f = some (some node) → node.nObj = 0 := by
      refine ⟨found, ran, fun x here => ⟨List.mem_cons_of_mem _ (hit x here).1, (hit x here).2⟩, fun f member => ?_⟩
      rcases List.mem_cons.mp member with rfl | later
      · exact fun _ => empty
      · exact missed f later
    cases here : freqMap g with
    | none => exact skips (by simp [here]) (by rw [searchFreq, here]; exact ran)
    | some entry =>
      cases entry with
      | none => exact absurd here (nulls g (List.mem_cons_self ..))
      | some node =>
        by_cases filled : 0 < node.nObj
        · refine ⟨g, by simp [searchFreq, here, filled], ?_, ?_⟩
          · rintro _ ⟨⟩
            exact ⟨List.mem_cons_self .., node, here, filled⟩
          · intro f member less
            have below := less g rfl
            rcases List.mem_cons.mp member with rfl | later
            · omega
            · have := before f later
              omega
        · refine skips (fun other same => ?_) (by rw [searchFreq, here]; simpa [filled] using ran)
          rw [here] at same
          cases same
          omega

/-- The least number of uses of a tracked frame, where there is one, and its list. -/
structure IsMin (map : Finset ℕ) (freq : ℕ → ℕ) (freqMap : ℕ → Option (Option FreqNode)) (x : ℕ) : Prop where
  lower : ∀ k ∈ map, x ≤ freq k
  attained : map = ∅ ∨ ∃ k ∈ map, freq k = x
  present : ∃ node, freqMap x = some (some node)

variable {r : LFUReplacer} {left : FreqNode}

/-- `update_min_freq` finds the least number of uses where all are greater than the old one. -/
theorem Filed.updateMinFreq (filed : Filed touched now r.map r.freq r.freqMap)
    (top : ∀ k ∈ r.map, r.freq k ≤ r.maxFreq) (lower : ∀ k ∈ r.map, r.minFreq < r.freq k) :
    ∃ x, r.updateMinFreq = .ok { r with minFreq := x } ∧
      (r.map = ∅ ∧ x = r.minFreq ∨ IsMin r.map r.freq r.freqMap x) := by
  have keys (f : ℕ) : f ∈ List.range' (r.minFreq + 1) (r.maxFreq - r.minFreq) ↔ r.minFreq < f ∧ f ≤ r.maxFreq := by
    rw [List.mem_range'_1]
    omega
  obtain ⟨found, ran, hit, missed⟩ := @searchFreq_eq r.freqMap (List.range' (r.minFreq + 1) (r.maxFreq - r.minFreq))
    (fun f member null => by
      have := (keys f).mp member
      have := filed.nulls f null
      omega) List.pairwise_lt_range'
  have inside {k : ℕ} (member : k ∈ r.map) := (keys (r.freq k)).mpr ⟨lower k member, top k member⟩
  refine ⟨found.getD r.minFreq, by rw [LFUReplacer.updateMinFreq, ran]; rfl, ?_⟩
  cases found with
  | none =>
    refine Or.inl ⟨Finset.eq_empty_of_forall_notMem fun k member => ?_, rfl⟩
    obtain ⟨node, here⟩ := filed.grouped.known k member
    have filled := (filed.nObj_pos_iff here).mpr ⟨k, member, rfl⟩
    have := missed _ (inside member) (by simp) node here
    omega
  | some x =>
    obtain ⟨_, node, here, filled⟩ := hit x rfl
    refine Or.inr ⟨fun k member => ?_, Or.inr ((filed.nObj_pos_iff here).mp filled), node, here⟩
    by_contra less
    obtain ⟨other, there⟩ := filed.grouped.known k member
    have filled := (filed.nObj_pos_iff there).mpr ⟨k, member, rfl⟩
    have := missed _ (inside member) (fun y same => by cases same; exact Nat.not_le.mp less) other there
    omega

/-- `min_freq` while the list of `f` uses may have become empty. -/
def MinLeft (r : LFUReplacer) (f : ℕ) : Prop :=
  r.minFreq = 0 ∨ (∀ k ∈ r.map, r.minFreq ≤ r.freq k) ∧ (r.minFreq = f ∨ ∃ k ∈ r.map, r.freq k = r.minFreq) ∧
    ∃ node, r.freqMap r.minFreq = some (some node)

/-- `min_freq` between two calls. -/
def MinKnown (r : LFUReplacer) : Prop := r.minFreq = 0 ∨ IsMin r.map r.freq r.freqMap r.minFreq

/-- Where the list that was left is the least one and empty, the search finds the next one; elsewhere `min_freq` is
right already. -/
theorem Filed.settle (filed : Filed touched now r.map r.freq r.freqMap) (here : r.freqMap f = some (some left))
    (top : ∀ k ∈ r.map, r.freq k ≤ r.maxFreq) (positive : 0 < f) (before : r.MinLeft f) :
    (left.nObj = 0 → r.minFreq = f → ∃ x, r.updateMinFreq = .ok { r with minFreq := x } ∧
      IsMin r.map r.freq r.freqMap x) ∧ (¬ (left.nObj = 0 ∧ r.minFreq = f) → r.MinKnown) := by
  have users := filed.nObj_pos_iff here
  constructor
  · intro empty same
    have nobody (k : ℕ) (member : k ∈ r.map) : r.freq k ≠ f := fun uses => by
      have := users.mpr ⟨k, member, uses⟩
      omega
    rcases before with zero | ⟨lower, _, present⟩
    · exact absurd (same.symm.trans zero) positive.ne'
    · obtain ⟨x, ran, none | min⟩ := filed.updateMinFreq top fun k member =>
        lt_of_le_of_ne (lower k member) fun reached => nobody k member (reached.symm.trans same)
      · refine ⟨x, ran, fun k member => ?_, Or.inl none.1, none.2 ▸ present⟩
        simp [none.1] at member
      · exact ⟨x, ran, min⟩
  · intro kept
    rcases before with zero | ⟨lower, same | attained, present⟩
    · exact Or.inl zero
    · have filled : 0 < left.nObj := Nat.pos_of_ne_zero fun empty => kept ⟨empty, same⟩
      exact Or.inr ⟨lower, Or.inr (same ▸ users.mp filled), present⟩
    · exact Or.inr ⟨lower, Or.inr attained, present⟩

theorem IsMin.drop {x : ℕ} (min : IsMin map freq freqMap x) (apart : x ≠ f) :
    IsMin map freq (Function.update freqMap f none) x :=
  ⟨min.lower, min.attained, by rw [Function.update_of_ne apart]; exact min.present⟩

/-- The end of `Promote`: an empty list is dropped, and `min_freq` moves on. -/
theorem Filed.dropEmpty (filed : Filed touched now r.map r.freq r.freqMap) (here : r.freqMap f = some (some left))
    (top : ∀ k ∈ r.map, r.freq k ≤ r.maxFreq) (positive : 0 < f) (some : r.map.Nonempty) (before : r.MinLeft f) :
    ∃ r', r.dropEmpty f left = .ok r' ∧ r'.map = r.map ∧ r'.freq = r.freq ∧ r'.maxFreq = r.maxFreq ∧
      Filed touched now r.map r.freq r'.freqMap ∧ r'.MinKnown := by
  have key := (filed.grouped.lists f left here).key
  have users := filed.nObj_pos_iff here
  obtain ⟨search, rest⟩ := filed.settle here top positive before
  rw [LFUReplacer.dropEmpty]
  by_cases empty : left.nObj = 0
  · have moved : ∃ x, r.leaveMinFreq left = .ok { r with minFreq := x } ∧
        (x = 0 ∨ IsMin r.map r.freq r.freqMap x) := by
      rw [leaveMinFreq, key]
      split_ifs with lowest
      · obtain ⟨x, ran, min⟩ := search empty lowest
        exact ⟨x, ran, Or.inr min⟩
      · exact ⟨r.minFreq, rfl, rest fun both => lowest both.2⟩
    obtain ⟨x, ran, min⟩ := moved
    rw [if_pos empty, ran, ok_bind, key]
    by_cases one : f = 1
    · rw [if_neg (not_not.mpr one)]
      exact ⟨_, rfl, rfl, rfl, rfl, filed, min⟩
    · rw [if_pos one]
      have objs : left.objs = [] := by
        rw [← List.length_eq_zero_iff, ← (filed.grouped.lists f left here).count, empty]
      refine ⟨_, rfl, rfl, rfl, rfl, filed.drop here objs one, min.imp_right fun min => min.drop ?_⟩
      rintro rfl
      have filled := users.mpr (min.attained.resolve_left some.ne_empty)
      omega
  · rw [if_neg empty]
    exact ⟨r, rfl, rfl, rfl, rfl, filed, rest fun both => empty both.1⟩

/-- `Promote` up to the point where it looks at the list that the frame has left. -/
def entered (r : LFUReplacer) (m : ℕ) (old node : FreqNode) : LFUReplacer :=
  (({ r with
    freq := Function.update r.freq m (r.freq m + 1)
    maxFreq := max r.maxFreq (r.freq m + 1) } : LFUReplacer).setNode (r.freq m) (old.remove m)).setNode
      (r.freq m + 1) (node.append m)

theorem promote_eq {old : FreqNode} (member : m ∈ r.map) (room : r.freq m + 1 < freqRange)
    (found : r.freqMap (r.freq m) = some (some old))
    (entry : ∀ r' : LFUReplacer, r'.freqMap (r.freq m + 1) = r.freqMap (r.freq m + 1) →
      r'.newNode (r.freq m + 1) = .ok node) :
    r.promote m = (r.entered m old node).dropEmpty (r.freq m) (old.remove m) >>= fun r' => .ok (true, r') := by
  have next : (r.freq m + 1) % freqRange = r.freq m + 1 := Nat.mod_eq_of_lt room
  have back : (r.freq m + 1 + (freqRange - 1)) % freqRange = r.freq m := by
    simp only [freqRange] at *
    omega
  rw [LFUReplacer.promote, if_pos member]
  simp only [next, back, LFUReplacer.node, found, ok_bind]
  rw [entry _ (by simp [setNode])]
  rfl

/-- The replacer keeps the tally. -/
structure Tallied (tally : Tally) (r : LFUReplacer) : Prop where
  map : r.map = tally.ages.present
  uses : ∀ k ∈ r.map, r.freq k = tally.uses k
  filed : Filed tally.ages.touched tally.ages.now r.map r.freq r.freqMap
  top : ∀ k ∈ r.map, r.freq k ≤ r.maxFreq
  one_le : 1 ≤ r.maxFreq
  range : r.maxFreq < freqRange
  min : r.MinKnown

variable {tally : Tally}

theorem tallied_new : Tallied .start new where
  map := rfl
  uses := by simp [new]
  filed := by
    have good := good_new
    refine ⟨good.grouped, fun f node found => ?_, by simp [new], by simp [new], good.one, fun f null => ?_⟩
    · by_cases one : f = 1
      · subst one
        cases found
        exact .nil
      · simp [new, Function.update_of_ne one] at found
    · by_cases one : f = 1
      · subst one
        cases null
      · simp [new, Function.update_of_ne one] at null
  top := by simp [new]
  one_le := le_rfl
  range := by decide
  min := Or.inr ⟨by simp [new], Or.inl rfl, _, rfl⟩

namespace Tallied

theorem insert (tallied : Tallied tally r) (fresh : m ∉ r.map) :
    ∃ r', r.insert m = .ok (true, r') ∧ Tallied (tally.reach m 1) r' := by
  obtain ⟨node, found⟩ := tallied.filed.one
  have ran : r.insert m = .ok (true, { r with
      minFreq := 1
      map := Insert.insert m r.map
      freq := Function.update r.freq m 1
      freqMap := Function.update r.freqMap 1 (some (some (node.append m))) }) := by
    rw [LFUReplacer.insert, if_neg fresh, LFUReplacer.node, found]
    rfl
  have filed := tallied.filed.add fresh Nat.one_pos (Or.inl found)
  refine ⟨_, ran, ?_, fun k member => ?_, filed, fun k member => ?_, tallied.one_le, tallied.range,
    Or.inr ⟨filed.positive, Or.inr ⟨m, Finset.mem_insert_self .., Function.update_self ..⟩, filed.one⟩⟩
  · exact congrArg (Insert.insert m) tallied.map
  · by_cases same : k = m
    · simp [Tally.reach, same]
    · simpa [Tally.reach, same] using tallied.uses k ((Finset.mem_insert.mp member).resolve_left same)
  · by_cases same : k = m
    · simpa [same] using tallied.one_le
    · simpa [same] using tallied.top k ((Finset.mem_insert.mp member).resolve_left same)

/-- The frame leaves its list and enters the next one. -/
theorem promote (tallied : Tallied tally r) (member : m ∈ r.map) (room : r.freq m + 1 < freqRange) :
    ∃ r', r.promote m = .ok (true, r') ∧ Tallied (tally.reach m (tally.uses m + 1)) r' := by
  obtain ⟨old, found⟩ := tallied.filed.grouped.known m member
  have positive := tallied.filed.positive m member
  have apart : r.freq m + 1 ≠ r.freq m := Nat.succ_ne_self _
  obtain ⟨node, target, entry⟩ : ∃ node, (r.freqMap (r.freq m + 1) = some (some node) ∨
      r.freqMap (r.freq m + 1) = none ∧ node = ⟨[], r.freq m + 1, 0⟩) ∧
      ∀ r' : LFUReplacer, r'.freqMap (r.freq m + 1) = r.freqMap (r.freq m + 1) → r'.newNode (r.freq m + 1) = .ok node := by
    cases here : r.freqMap (r.freq m + 1) with
    | none => exact ⟨_, Or.inr ⟨rfl, rfl⟩, fun r' same => by rw [newNode, same]⟩
    | some entry =>
      cases entry with
      | none => exact absurd (tallied.filed.nulls _ here) (Nat.succ_ne_zero _)
      | some node => exact ⟨node, Or.inl rfl, fun r' same => by rw [newNode, same]⟩
  have added : Filed (Function.update tally.ages.touched m tally.ages.now) (tally.ages.now + 1) (r.entered m old node).map
      (r.entered m old node).freq (r.entered m old node).freqMap := by
    have removed := tallied.filed.remove member found
    have added := removed.add (Finset.notMem_erase m r.map) (Nat.succ_pos (r.freq m))
      (by rwa [Nat.succ_eq_add_one, Function.update_of_ne apart])
    rwa [Finset.insert_erase member] at added
  have left : (r.entered m old node).freqMap (r.freq m) = some (some (old.remove m)) := by
    simp [entered, setNode]
  have freq (k : ℕ) : (r.entered m old node).freq k = if k = m then r.freq m + 1 else r.freq k :=
    Function.update_apply ..
  have top : ∀ k ∈ (r.entered m old node).map, (r.entered m old node).freq k ≤ (r.entered m old node).maxFreq := by
    intro k known
    rw [freq]
    split_ifs
    · exact le_max_right ..
    · exact (tallied.top k known).trans (le_max_left ..)
  have before : (r.entered m old node).MinLeft (r.freq m) := by
    rcases tallied.min with zero | min
    · exact Or.inl zero
    · refine Or.inr ⟨fun k known => ?_, ?_, exists_store _ (exists_store _ min.present)⟩
      · rw [freq]
        split_ifs with same
        · exact (min.lower m member).trans (Nat.le_succ _)
        · exact min.lower k known
      · obtain ⟨k, known, least⟩ := min.attained.resolve_left (Finset.ne_empty_of_mem member)
        by_cases same : k = m
        · exact Or.inl (least.symm.trans (congrArg r.freq same))
        · exact Or.inr ⟨k, known, by rw [freq, if_neg same]; exact least⟩
  obtain ⟨r', dropped, map, freqs, maxFreq, filed, min⟩ := added.dropEmpty left top positive ⟨m, member⟩ before
  have mapped : r'.map = r.map := map
  refine ⟨r', ?_, mapped.trans ?_, fun k known => ?_, ?_, fun k known => ?_, ?_, ?_, min⟩
  · rw [promote_eq member room found entry, dropped, ok_bind]
  · rw [tallied.map]
    exact (Finset.insert_eq_of_mem (tallied.map ▸ member)).symm
  · rw [freqs, freq, tallied.uses m member]
    by_cases same : k = m
    · simp [Tally.reach, same]
    · simpa [Tally.reach, same] using tallied.uses k (mapped ▸ known)
  · rw [mapped, freqs]
    exact filed
  · rw [freqs, maxFreq]
    exact top k (mapped ▸ known)
  · rw [maxFreq]
    exact tallied.one_le.trans (le_max_left ..)
  · rw [maxFreq]
    exact max_lt tallied.range room

/-- A frame is forgotten, with `min_freq` in order. -/
theorem forget {old : FreqNode} (tallied : Tallied tally r) (member : m ∈ r.map)
    (found : r.freqMap (r.freq m) = some (some old)) {x : ℕ}
    (min : x = 0 ∨ IsMin (r.map.erase m) r.freq (r.setNode (r.freq m) (old.remove m)).freqMap x) :
    Tallied (tally.forget [m])
      { r.setNode (r.freq m) (old.remove m) with map := r.map.erase m, minFreq := x } where
  map := by
    change r.map.erase m = tally.ages.present \ [m].toFinset
    rw [tallied.map, Finset.erase_eq]
    simp
  uses k known := tallied.uses k (Finset.mem_of_mem_erase known)
  filed := tallied.filed.remove member found
  top k known := tallied.top k (Finset.mem_of_mem_erase known)
  one_le := tallied.one_le
  range := tallied.range
  min := min

theorem erase (tallied : Tallied tally r) (member : m ∈ r.map) :
    ∃ r', r.erase m = .ok (true, r') ∧ Tallied (tally.forget [m]) r' := by
  obtain ⟨old, found⟩ := tallied.filed.grouped.known m member
  have positive := tallied.filed.positive m member
  let r₁ : LFUReplacer := { r.setNode (r.freq m) (old.remove m) with map := r.map.erase m }
  have removed : Filed tally.ages.touched tally.ages.now r₁.map r₁.freq r₁.freqMap := tallied.filed.remove member found
  have left : r₁.freqMap (r.freq m) = some (some (old.remove m)) := Function.update_self ..
  have key : (old.remove m).freq = r.freq m := (tallied.filed.grouped.lists _ _ found).key
  have top : ∀ k ∈ r₁.map, r₁.freq k ≤ r₁.maxFreq := fun k known => tallied.top k (Finset.mem_of_mem_erase known)
  have before : r₁.MinLeft (r.freq m) := by
    rcases tallied.min with zero | min
    · exact Or.inl zero
    · refine Or.inr ⟨fun k known => min.lower k (Finset.mem_of_mem_erase known), ?_, exists_store _ min.present⟩
      obtain ⟨k, known, least⟩ := min.attained.resolve_left (Finset.ne_empty_of_mem member)
      by_cases same : k = m
      · exact Or.inl (least.symm.trans (congrArg r.freq same))
      · exact Or.inr ⟨k, Finset.mem_erase.mpr ⟨same, known⟩, least⟩
  obtain ⟨search, rest⟩ := removed.settle left top positive before
  have settled : ∃ x, r₁.eraseMinFreq (old.remove m) = .ok { r₁ with minFreq := x } ∧
      (x = 0 ∨ IsMin r₁.map r₁.freq r₁.freqMap x) := by
    rw [eraseMinFreq, key]
    split_ifs with empty
    · obtain ⟨x, ran, min⟩ := search empty.2 empty.1.symm
      exact ⟨x, ran, Or.inr min⟩
    · exact ⟨r₁.minFreq, rfl, rest fun both => empty ⟨both.2.symm, both.1⟩⟩
  obtain ⟨x, ran, min⟩ := settled
  refine ⟨{ r₁ with minFreq := x }, ?_, tallied.forget member found min⟩
  rw [LFUReplacer.erase, if_pos member, LFUReplacer.node, found]
  exact congrArg (· >>= fun r' => Except.ok (true, r')) ran

/-- A lazy search finds the least number of uses, or nothing is tracked. -/
theorem refreshMinFreq (tallied : Tallied tally r) : ∃ x, r.refreshMinFreq = .ok { r with minFreq := x } ∧
    (x = 0 ∧ r.map = ∅ ∨ IsMin r.map r.freq r.freqMap x) := by
  rw [LFUReplacer.refreshMinFreq]
  split_ifs with zero
  · obtain ⟨x, ran, none | min⟩ := tallied.filed.updateMinFreq tallied.top fun k known =>
      zero.trans_lt (tallied.filed.positive k known)
    · exact ⟨x, ran, Or.inl ⟨none.2.trans zero, none.1⟩⟩
    · exact ⟨x, ran, Or.inr min⟩
  · exact ⟨r.minFreq, rfl, Or.inr (tallied.min.resolve_left zero)⟩

theorem setMin (tallied : Tallied tally r) {x : ℕ} (min : x = 0 ∨ IsMin r.map r.freq r.freqMap x) :
    Tallied tally { r with minFreq := x } :=
  ⟨tallied.map, tallied.uses, tallied.filed, tallied.top, tallied.one_le, tallied.range, min⟩

/-- `get_min_freq_node` finds the list of the least number of uses. Where nothing is tracked it finds no frame. -/
theorem minFreqNode (tallied : Tallied tally r) : ∃ found r₁, r.minFreqNode = .ok (found, r₁) ∧ Tallied tally r₁ ∧
    r₁.map = r.map ∧ ((r.map = ∅ ∧ ∀ node, found = some node → node.nObj = 0) ∨
      ∃ node, found = some node ∧ 0 < node.nObj ∧ r₁.freqMap r₁.minFreq = some (some node) ∧
        ∀ k ∈ r₁.map, r₁.minFreq ≤ r₁.freq k) := by
  have outcome {x : ℕ} {node : FreqNode} (min : IsMin r.map r.freq r.freqMap x)
      (here : r.freqMap x = some (some node)) : (r.map = ∅ ∧ ∀ other, some node = some other → other.nObj = 0) ∨
      ∃ other, some node = some other ∧ 0 < other.nObj ∧ r.freqMap x = some (some other) ∧
        ∀ k ∈ r.map, x ≤ r.freq k := by
    have users := tallied.filed.nObj_pos_iff here
    rcases min.attained with empty | attained
    · refine Or.inl ⟨empty, ?_⟩
      rintro _ ⟨⟩
      by_contra filled
      obtain ⟨k, known, _⟩ := users.mp (Nat.pos_of_ne_zero filled)
      simp [empty] at known
    · exact Or.inr ⟨node, rfl, users.mpr attained, here, min.lower⟩
  rw [LFUReplacer.minFreqNode]
  split_ifs with one
  · obtain ⟨node, present⟩ := tallied.filed.one
    have min := tallied.min.resolve_left (by omega)
    refine ⟨some node, r, by rw [LFUReplacer.node, present]; rfl, tallied, rfl, ?_⟩
    rw [one] at min ⊢
    exact outcome min present
  · obtain ⟨x, ran, known⟩ := tallied.refreshMinFreq
    rw [ran, ok_bind]
    dsimp only
    rcases known with ⟨rfl, empty⟩ | min
    · cases here : r.freqMap 0 with
      | none =>
        refine ⟨none, _, rfl, ?_, rfl, Or.inl ⟨empty, by simp⟩⟩
        exact ⟨tallied.map, tallied.uses, tallied.filed.null here, tallied.top, tallied.one_le, tallied.range, Or.inl rfl⟩
      | some entry =>
        refine ⟨entry, _, rfl, tallied.setMin (Or.inl rfl), rfl, Or.inl ⟨empty, ?_⟩⟩
        rintro node rfl
        by_contra filled
        obtain ⟨k, member, _⟩ := (tallied.filed.nObj_pos_iff here).mp (Nat.pos_of_ne_zero filled)
        simp [empty] at member
    · obtain ⟨node, present⟩ := min.present
      rw [present]
      exact ⟨some node, _, rfl, tallied.setMin (Or.inr min), rfl, outcome min present⟩

/-- `Victim` takes the head of that list. -/
theorem victim (tallied : Tallied tally r) : ∃ taken r', r.victim = .ok (taken, r') ∧
    Tallied (tally.forget taken.toList) r' ∧
      ((∃ m, taken = some m ∧ tally.Least m) ∨ taken = none ∧ tally.ages.present = ∅) := by
  obtain ⟨found, r₁, searched, tallied₁, map, none | ⟨node, rfl, filled, here, lower⟩⟩ := tallied.minFreqNode
  · have ran : r.victim = .ok (Option.none, r₁) := by
      rw [LFUReplacer.victim, searched, ok_bind]
      cases found with
      | none => rfl
      | some node => exact if_pos (none.2 node rfl)
    refine ⟨Option.none, r₁, ran, ?_, Or.inr ⟨rfl, tallied.map ▸ none.1⟩⟩
    have same : tally.forget (Option.none : Option ℕ).toList = tally := by
      rw [Tally.forget, Option.toList_none, Ages.forget_nil]
    rwa [same]
  · have lists := tallied₁.filed.grouped.lists _ node here
    obtain ⟨i, rest, objs⟩ : ∃ i rest, node.objs = i :: rest := by
      refine List.exists_cons_of_ne_nil fun empty => ?_
      rw [lists.count, empty] at filled
      exact lt_irrefl 0 filled
    obtain ⟨member, uses⟩ := (lists.mem i).mp (objs ▸ List.mem_cons_self ..)
    have least : tally.Least i := by
      refine ⟨tallied₁.map ▸ member, fun j present apart => ?_⟩
      have known : j ∈ r₁.map := tallied₁.map.symm ▸ present
      rw [← tallied₁.uses i member, ← tallied₁.uses j known, uses]
      rcases (lower j known).lt_or_eq with less | same
      · exact Or.inl less
      · exact Or.inr ⟨same, tallied₁.filed.arrived.first here objs j ((lists.mem j).mpr ⟨known, same.symm⟩) apart⟩
    have present : r₁.freqMap (r₁.freq i) = some (some node) := uses ▸ here
    have removed := tallied₁.filed.remove member present
    have left : Function.update r₁.freqMap (r₁.freq i) (some (some (node.remove i))) (r₁.freq i) =
        some (some (node.remove i)) := Function.update_self ..
    have min : (if (node.remove i).nObj = 0 then 0 else r₁.minFreq) = 0 ∨ IsMin (r₁.map.erase i) r₁.freq
        (r₁.setNode (r₁.freq i) (node.remove i)).freqMap (if (node.remove i).nObj = 0 then 0 else r₁.minFreq) := by
      split_ifs with empty
      · exact Or.inl rfl
      · obtain ⟨k, known, same⟩ := (removed.nObj_pos_iff left).mp (Nat.pos_of_ne_zero empty)
        rw [← uses]
        exact Or.inr ⟨fun k known => uses ▸ lower k (Finset.mem_of_mem_erase known), Or.inr ⟨k, known, same⟩, _, left⟩
    refine ⟨some i, _, ?_, tallied₁.forget member present min, Or.inl ⟨i, rfl, least⟩⟩
    rw [LFUReplacer.victim, searched, ok_bind]
    dsimp only
    rw [if_neg (Nat.ne_of_gt filled), objs, uses]
    by_cases empty : (node.remove i).nObj = 0
    · simp only [if_pos empty]
      rfl
    · simp only [if_neg empty]
      rfl

end Tallied

/-- The replacer answers every call rightly and keeps the tally. -/
theorem Tallied.answers (tallied : Tallied tally r) {call : ReplacerCall} (allowed : lfuContract.Allowed tally call) :
    ∃ answer r', Answered r call answer r' ∧ lfuContract.Answers tally call answer ∧
      Tallied (lfuContract.after tally call answer) r' := by
  have known (m : ℕ) : m ∈ r.map ↔ m ∈ tally.ages.present := by rw [tallied.map]
  cases call with
  | insert m =>
    by_cases tracked : m ∈ r.map
    · refine ⟨.returned false, r, .insert (if_pos tracked), ?_, ?_⟩
      · simp [lfuContract, (known m).mp tracked]
      · simpa only [lfuContract, if_pos ((known m).mp tracked)] using tallied
    · obtain ⟨r', ran, next⟩ := tallied.insert tracked
      refine ⟨.returned true, r', .insert ran, ?_, ?_⟩
      · simp [lfuContract, (known m).not.mp tracked]
      · simpa only [lfuContract, if_neg ((known m).not.mp tracked)] using next
  | promote m =>
    by_cases tracked : m ∈ r.map
    · have room : r.freq m + 1 < freqRange := (tallied.uses m tracked).symm ▸ allowed ((known m).mp tracked)
      obtain ⟨r', ran, next⟩ := tallied.promote tracked room
      refine ⟨.returned true, r', .promote ran, ?_, ?_⟩
      · simp [lfuContract, (known m).mp tracked]
      · simpa only [lfuContract, if_pos ((known m).mp tracked)] using next
    · refine ⟨.returned false, r, .promote (if_neg tracked), ?_, ?_⟩
      · simp [lfuContract, (known m).not.mp tracked]
      · simpa only [lfuContract, if_neg ((known m).not.mp tracked)] using tallied
  | erase m =>
    by_cases tracked : m ∈ r.map
    · obtain ⟨r', ran, next⟩ := tallied.erase tracked
      refine ⟨.returned true, r', .erase ran, ?_, next⟩
      simp [lfuContract, (known m).mp tracked]
    · refine ⟨.returned false, r, .erase (if_neg tracked), ?_, ?_⟩
      · simp [lfuContract, (known m).not.mp tracked]
      · have same : tally.forget [m] = tally := by
          rw [Tally.forget, Ages.forget_of_notMem ((known m).not.mp tracked)]
        simpa only [lfuContract, same] using tallied
  | victim pt =>
    obtain ⟨taken, r', ran, next, right⟩ := tallied.victim
    refine ⟨.victim taken pt, r', .victim ⟨0, fun _ _ => by simp only [Policy.victim, ran]; rfl⟩, ?_, next⟩
    rcases right with ⟨m, rfl, least⟩ | ⟨rfl, empty⟩
    · exact Or.inl ⟨m, least, rfl⟩
    · exact Or.inr ⟨empty, rfl⟩
  | victims => exact allowed.elim

end LFUReplacer

end Gbp
