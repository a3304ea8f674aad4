import GraphBufferPool.Indexer.IdIndexerRuns
import GraphBufferPool.Indexer.LFIndexer
import GraphBufferPool.Lib.Fuel
import GraphBufferPool.Lib.Probing

/-! # Building an `LFIndexer`

`build_lf_indexer` copies the slots of an `IdIndexer`, and puts what lies behind the ring into the first free slots from
its home. From the home of every key a path of taken slots leads to its entry, so that the lookups of the
two indexers agree.
-/

namespace Gbp

open Function Fuel Probing

namespace Items

variable {items : Items} {numGet : ℕ → ℕ} {index : ℕ}

/-- The bounds of a block are inside it, and its first item is their start. -/
structure Good (items : Items) : Prop where
  first : items.first = items.startIndex
  last : items.endIndex ≤ items.startIndex + items.numGet

theorem good_get (small : index < 2 ^ 32) (n : ℕ) : (get index n).Good where
  first := (Nat.mod_eq_of_lt small).symm
  last := by
    change (index + n) % 2 ^ 32 ≤ index % 2 ^ 32 + n
    rw [Nat.mod_eq_of_lt small]
    exact Nat.mod_le _ _

theorem Good.upTo (good : items.Good) (small : index < 2 ^ 32) : (items.upTo numGet index).Good := by
  rw [Items.upTo]
  split_ifs
  · exact good_get small _
  · exact good

/-- The block for an index reaches to it. -/
theorem Good.upTo_reaches (good : items.Good) (small : index < 2 ^ 32) (positive : 0 < numGet index) :
    (items.upTo numGet index).startIndex ≤ index ∧
      index - (items.upTo numGet index).startIndex < (items.upTo numGet index).numGet := by
  rw [Items.upTo]
  split_ifs with away
  · rw [get, Nat.mod_eq_of_lt small, Nat.sub_self]
    exact ⟨le_rfl, positive⟩
  · have last := good.last
    omega

end Items

namespace LFIndexer

variable {hash : Hashing ℤ} {w perPage : ℕ} {s : LFIndexer} {oid : ℤ} {index : ℕ}

/-- A slot with an index. -/
def Claimed (w : ℕ) (s : LFIndexer) (p : ℕ) : Prop := (s.indices p).index ≠ sentinel w

/-- A probe comes from a slot to another one over claimed slots. -/
abbrev Way (w : ℕ) (s : LFIndexer) : ℕ → ℕ → Prop := Path (succMod s.numSlotsMinusOne) (s.Claimed w)

/-- Every probe stays in the table. -/
structure Shape (hash : Hashing ℤ) (s : LFIndexer) : Prop where
  ring : 0 < s.numSlotsMinusOne
  inside : s.numSlotsMinusOne < s.indicesSize
  small : s.indicesSize ≤ 2 ^ 32
  bound : ∀ oid, s.home hash oid ≤ s.numSlotsMinusOne

section lookups

variable {items : Items} {q : ℕ}

theorem Shape.succ_le (shape : Shape hash s) (index : ℕ) : succMod s.numSlotsMinusOne index ≤ s.numSlotsMinusOne :=
  (Nat.mod_lt _ shape.ring).le

/-- The item that a loop looks at is that of its index. -/
theorem Shape.place_upTo (shape : Shape hash s) {count : ℕ → ℕ} (good : items.Good) (below : index ≤ s.numSlotsMinusOne)
    (positive : 0 < count index) : s.place (items.upTo count index) index = .ok index := by
  have inside := shape.inside
  have small := shape.small
  obtain ⟨start, reaches⟩ := good.upTo_reaches (by omega) positive
  have first := (@Items.Good.upTo _ count _ good (show index < 2 ^ 32 by omega)).first
  have same : (items.upTo count index).first + (index - (items.upTo count index).startIndex) = index := by omega
  rw [place, if_pos ⟨reaches, by omega⟩, same]

theorem Shape.numGet_pos (shape : Shape hash s) (page : 0 < perPage) (below : index ≤ s.numSlotsMinusOne) :
    0 < numGet perPage s index := by
  have inside := shape.inside
  have rest := Nat.mod_lt index page
  rw [LFIndexer.numGet, restOfPage]
  omega

/-- A lookup ends at the first slot on its way that is free or has the key. -/
theorem Shape.getIndexFrom (shape : Shape hash s) (page : 0 < perPage) (way : s.Way w index q)
    (ends : ¬ s.Claimed w q ∨ (s.indices q).key = oid) (below : index ≤ s.numSlotsMinusOne) (good : items.Good) :
    ∃ last, Returns (fun fuel => s.getIndexFrom w perPage oid fuel items index)
      (if (s.indices last).index = sentinel w then none else some (s.indices last).index) ∧
      (s.Claimed w last → (s.indices last).key = oid) ∧ (s.Claimed w q → s.Claimed w last) := by
  have inside := shape.inside
  have small := shape.small
  induction way generalizing items with
  | here index =>
    have place := shape.place_upTo good below (shape.numGet_pos page below)
    refine ⟨index, (Returns.shift 1 fun fuel => ?_).mpr .const, ends.resolve_left ∘ not_not_intro, id⟩
    rw [LFIndexer.getIndexFrom, place, ok_bind]
    split_ifs with free same
    · rfl
    · rfl
    · exact absurd (ends.resolve_left (not_not_intro free)) same
  | @step index q used _ ih =>
    have place := shape.place_upTo good below (shape.numGet_pos page below)
    rcases eq_or_ne (s.indices index).key oid with same | other
    · refine ⟨index, (Returns.shift 1 fun fuel => ?_).mpr .const, fun _ => same, fun _ => used⟩
      rw [LFIndexer.getIndexFrom, place, ok_bind]
      rw [if_neg used, if_pos same, if_neg used]
      rfl
    · obtain ⟨last, ran, agrees, claimed⟩ := ih ends (shape.succ_le index)
        (@Items.Good.upTo _ (numGet perPage s) _ good (show index < 2 ^ 32 by omega))
      refine ⟨last, (Returns.shift 1 fun fuel => ?_).mpr ran, agrees, claimed⟩
      rw [LFIndexer.getIndexFrom, place, ok_bind]
      rw [if_neg used, if_neg other]
      rfl

end lookups

/-- Every entry lies on the way of its key, and has an index whose key it is; every index has its entry. -/
structure Sound (hash : Hashing ℤ) (w : ℕ) (s : LFIndexer) : Prop extends Shape hash s where
  fits : s.numElements ≤ sentinel w
  room : s.numElements ≤ s.keysSize
  placed : ∀ p, s.Claimed w p → s.Way w (s.home hash (s.indices p).key) p
  keyed : ∀ p, s.Claimed w p → (s.indices p).index < s.numElements ∧ s.keys (s.indices p).index = (s.indices p).key
  stored : ∀ ind < s.numElements, ∃ p, s.indices p = ⟨ind, s.keys ind⟩
  free : ∀ p, ¬ s.Claimed w p → (s.indices p).key = 0

/-- A lookup of a key that is there finds an index with that key. -/
theorem Sound.getIndex_of_stored (sound : Sound hash w s) (page : 0 < perPage) {ind : ℕ} (below : ind < s.numElements)
    (key : s.keys ind = oid) : ∃ ret < s.numElements, s.keys ret = oid ∧
      Returns (s.getIndex w perPage hash oid) (some ret) := by
  obtain ⟨p, entry⟩ := sound.stored ind below
  have claimed : s.Claimed w p := by
    have := sound.fits
    rw [Claimed, entry]
    dsimp only
    omega
  have way := sound.placed p claimed
  have same : (s.indices p).key = oid := by rw [entry, key]
  rw [same] at way
  have start : s.home hash oid < 2 ^ 32 :=
    (sound.bound oid).trans_lt (sound.inside.trans_le sound.small)
  obtain ⟨last, ran, agrees, found⟩ := sound.toShape.getIndexFrom page way (Or.inr same) (sound.bound oid)
    (Items.good_get start (numGet perPage s _))
  obtain ⟨fits, keyed⟩ := sound.keyed last (found claimed)
  refine ⟨_, fits, keyed.trans (agrees (found claimed)), ?_⟩
  rwa [if_neg (found claimed)] at ran

/-- A lookup of a key that is not there ends at a free slot, if the ring has one. -/
theorem Sound.getIndex_of_missing (sound : Sound hash w s) (page : 0 < perPage) (missing : ∀ ind < s.numElements, s.keys ind ≠ oid)
    (free : ∃ p < s.numSlotsMinusOne, ¬ s.Claimed w p) : Returns (s.getIndex w perPage hash oid) none := by
  obtain ⟨p, inRing, free⟩ := free
  obtain ⟨n, rfl⟩ := exists_iterate_succMod (s.home hash oid) inRing
  obtain ⟨b, way, free⟩ := exists_path_of_free free
  have start : s.home hash oid < 2 ^ 32 :=
    (sound.bound oid).trans_lt (sound.inside.trans_le sound.small)
  obtain ⟨last, ran, agrees, _⟩ := sound.toShape.getIndexFrom page way (Or.inl free) (sound.bound oid)
    (Items.good_get start (numGet perPage s _))
  have unclaimed : (s.indices last).index = sentinel w := by
    by_contra claimed
    obtain ⟨below, keyed⟩ := sound.keyed last claimed
    exact missing _ below (keyed.trans (agrees claimed))
  rwa [if_pos unclaimed] at ran

section build

variable {input : IdIndexer ℤ} {items : ℕ → IndexKeyItem} {extra rest : List (ℤ × ℕ)} {keys : List ℤ} {lid p b : ℕ}

/-- The state of the loops of `build_lf_indexer` with the slots as they are then. -/
def withItems (w : ℕ) (input : IdIndexer ℤ) (items : ℕ → IndexKeyItem) : LFIndexer :=
  { unfilled w input with indices := items }

instance : DecidablePred (s.Claimed w) := fun p => inferInstanceAs (Decidable ((s.indices p).index ≠ sentinel w))

/-- The number of claimed slots of the ring. -/
def claimedCount (w : ℕ) (s : LFIndexer) : ℕ := ((Finset.range s.numSlotsMinusOne).filter (s.Claimed w)).card

theorem claimedCount_setItem_le (index : ℕ) (item : IndexKeyItem) :
    (s.setItem index item).claimedCount w ≤ s.claimedCount w + 1 := by
  refine (Finset.card_le_card ?_).trans (Finset.card_insert_le index _)
  intro p member
  obtain ⟨inRing, claimed⟩ := Finset.mem_filter.mp member
  rcases eq_or_ne p index with rfl | apart
  · exact Finset.mem_insert_self ..
  · refine Finset.mem_insert_of_mem (Finset.mem_filter.mpr ⟨inRing, ?_⟩)
    simpa [Claimed, setItem, apart] using claimed

/-- A ring with fewer claimed slots than slots has a free one. -/
theorem exists_free (few : s.claimedCount w < s.numSlotsMinusOne) : ∃ p < s.numSlotsMinusOne, ¬ s.Claimed w p := by
  by_contra none
  push Not at none
  apply few.ne
  rw [claimedCount, Finset.filter_true_of_mem fun p inside => none p (Finset.mem_range.mp inside), Finset.card_range]

theorem claimed_setItem {index : ℕ} {item : IndexKeyItem} (real : item.index ≠ sentinel w) (p : ℕ) :
    (s.setItem index item).Claimed w p ↔ s.Claimed w p ∨ p = index := by
  rcases eq_or_ne p index with rfl | apart
  · simp [Claimed, setItem, real]
  · simp [Claimed, setItem, apart]

/-- The second loop puts an entry into the first free slot on the way from its home. -/
theorem Shape.putExtra (shape : Shape hash s) {start : ℕ} (way : s.Way w start b) (free : ¬ s.Claimed w b)
    (below : start ≤ s.numSlotsMinusOne) (ret : ℕ) :
    Returns (fun fuel => s.putExtra w oid ret fuel start) (s.setItem b ⟨ret, oid⟩) := by
  have inside := shape.inside
  induction way with
  | here a =>
    refine (Returns.shift 1 fun fuel => ?_).mpr .const
    rw [LFIndexer.putExtra, if_neg (by omega), if_pos (not_not.mp free)]
  | @step a b used _ ih =>
    refine (Returns.shift 1 fun fuel => ?_).mpr (ih free (shape.succ_le a))
    rw [LFIndexer.putExtra, if_neg (by omega), if_neg used]
    rfl

/-- The slots while the entries in `rest` are still to be put. -/
structure Filling (hash : Hashing ℤ) (w : ℕ) (input : IdIndexer ℤ) (rest : List (ℤ × ℕ)) (items : ℕ → IndexKeyItem) :
    Prop where
  keyed : ∀ p, (withItems w input items).Claimed w p → input.keys[(items p).index]? = some (items p).key
  placed : ∀ p, (withItems w input items).Claimed w p → (withItems w input items).Way w (input.home hash (items p).key) p
  free : ∀ p, ¬ (withItems w input items).Claimed w p → (items p).key = 0
  aside : ∀ pair ∈ rest, input.keys[pair.2]? = some pair.1
  kept : ∀ lid oid, input.keys[lid]? = some oid → (∃ p, items p = ⟨lid, oid⟩) ∨ (oid, lid) ∈ rest
  count : (withItems w input items).claimedCount w + rest.length ≤ input.keys.length

theorem shape_withItems (full : IdIndexer.Full hash input) (ring : 0 < input.numSlotsMinusOne)
    (small : input.entryNum ≤ 2 ^ 32) : Shape hash (withItems w input items) where
  ring := ring
  inside := by
    have entryNum := full.entryNum
    have lookups := full.lookups
    change input.numSlotsMinusOne < input.entryNum
    omega
  small := small
  bound := full.bound

theorem index_ne_sentinel (fits : input.keys.length < 2 ^ w) (here : input.keys[lid]? = some oid) : lid ≠ sentinel w := by
  obtain ⟨inside, _⟩ := List.getElem?_eq_some_iff.mp here
  rw [sentinel]
  omega

/-- One round of the second loop. -/
theorem Filling.put {pair : ℤ × ℕ} (filling : Filling hash w input (pair :: rest) items) (full : IdIndexer.Full hash input)
    (fits : input.keys.length < 2 ^ w) (sparse : input.keys.length < input.numSlotsMinusOne)
    (small : input.entryNum ≤ 2 ^ 32) : ∃ items', Returns (fun fuel => (withItems w input items).putExtra w pair.1 pair.2
      fuel (input.home hash pair.1)) (withItems w input items') ∧ Filling hash w input rest items' := by
  have shape := @shape_withItems hash w input items full (Nat.zero_lt_of_lt sparse) small
  have count := filling.count
  obtain ⟨q, inRing, open_⟩ := @exists_free w (withItems w input items) (by
    rw [List.length_cons] at count
    exact lt_of_le_of_lt (by omega) sparse)
  obtain ⟨n, rfl⟩ := exists_iterate_succMod (input.home hash pair.1) inRing
  obtain ⟨b, way, free⟩ := exists_path_of_free open_
  have here := filling.aside pair (List.mem_cons_self ..)
  have claimed (p : ℕ) := @claimed_setItem w (withItems w input items) b ⟨pair.2, pair.1⟩ (index_ne_sentinel fits here) p
  have grown (p : ℕ) (before : (withItems w input items).Claimed w p) := (claimed p).mpr (Or.inl before)
  refine ⟨update items b ⟨pair.2, pair.1⟩, shape.putExtra way free (full.bound _) pair.2, ?_⟩
  constructor
  · intro p taken
    rcases eq_or_ne p b with rfl | apart
    · rwa [update_self]
    · rw [update_of_ne apart]
      exact filling.keyed p (((claimed p).mp taken).resolve_right apart)
  · intro p taken
    rcases eq_or_ne p b with rfl | apart
    · rw [update_self]
      exact way.mono grown
    · rw [update_of_ne apart]
      exact (filling.placed p (((claimed p).mp taken).resolve_right apart)).mono grown
  · intro p untaken
    have apart : p ≠ b := fun same => untaken ((claimed p).mpr (Or.inr same))
    rw [update_of_ne apart]
    exact filling.free p fun before => untaken (grown p before)
  · exact fun other member => filling.aside other (List.mem_cons_of_mem _ member)
  · intro lid oid key
    rcases filling.kept lid oid key with ⟨p, entry⟩ | member
    · refine Or.inl ⟨p, ?_⟩
      have apart : p ≠ b := by
        rintro rfl
        apply free
        rw [Claimed]
        change (items p).index ≠ _
        rw [entry]
        exact index_ne_sentinel fits key
      rwa [update_of_ne apart]
    · rcases List.mem_cons.mp member with rfl | later
      · exact Or.inl ⟨b, update_self ..⟩
      · exact Or.inr later
  · have one := @claimedCount_setItem_le w (withItems w input items) b ⟨pair.2, pair.1⟩
    change ((withItems w input items).setItem b _).claimedCount w + rest.length ≤ _
    rw [List.length_cons] at count
    omega

/-- The slots and the entries that are put aside while the keys in `rest` are still to be looked up. -/
structure Copying (w : ℕ) (input : IdIndexer ℤ) (rest : List ℤ) (extra : List (ℤ × ℕ)) (items : ℕ → IndexKeyItem) :
    Prop where
  suffix : rest <:+ input.keys
  copied : ∀ p < input.numSlotsMinusOne, 0 ≤ input.distances p → ∀ oid, input.keys[input.indices p]? = some oid →
    oid ∉ rest → items p = ⟨input.indices p, oid⟩
  only : ∀ p, (withItems w input items).Claimed w p → p < input.numSlotsMinusOne ∧ 0 ≤ input.distances p ∧
    ∃ oid, input.keys[input.indices p]? = some oid ∧ items p = ⟨input.indices p, oid⟩
  free : ∀ p, ¬ (withItems w input items).Claimed w p → (items p).key = 0
  aside : ∀ pair ∈ extra, input.keys[pair.2]? = some pair.1
  kept : ∀ lid oid, input.keys[lid]? = some oid → oid ∉ rest → (∃ p, items p = ⟨lid, oid⟩) ∨ (oid, lid) ∈ extra
  count : (withItems w input items).claimedCount w + extra.length + rest.length ≤ input.keys.length

/-- One round of the first loop. -/
theorem Copying.copyEntry {rest : List ℤ} (copying : Copying w input (oid :: rest) extra items)
    (full : IdIndexer.Full hash input) (distinct : input.keys.Nodup) (fits : input.keys.length < 2 ^ w) :
    ∃ items' extra', LFIndexer.copyEntry hash input (withItems w input items, extra) oid =
      .ok (withItems w input items', extra') ∧ Copying w input rest extra' items' := by
  have suffix := (List.suffix_cons oid rest).trans copying.suffix
  have count := copying.count
  rw [List.length_cons] at count
  have split (other : ℤ) (later : other ∉ rest) : other = oid ∨ other ∉ oid :: rest := by
    rw [List.mem_cons]
    tauto
  obtain ⟨last, found, here, ran⟩ : ∃ last, IdIndexer.Found input (input.keyIs oid) (input.home hash oid) last ∧
      input.keys[input.indices last]? = some oid ∧
      input.lookup (input.keyIs oid) (input.home hash oid) = .ok (.found last (input.indices last)) := by
    rcases full.lookup oid with found | ⟨missing, _⟩
    · exact found
    · exact absurd (copying.suffix.mem (List.mem_cons_self ..)) missing
  have sameLid (lid : ℕ) (key : input.keys[lid]? = some oid) : lid = input.indices last :=
    (IdIndexer.idxOf_of_getElem? distinct key).symm.trans (IdIndexer.idxOf_of_getElem? distinct here)
  have entryNum := full.entryNum
  have lookups := full.lookups
  have sameSlot (p : ℕ) (below : p < input.numSlotsMinusOne) (used : 0 ≤ input.distances p)
      (key : input.keys[input.indices p]? = some oid) : p = last :=
    full.once p last (show p < input.entryNum - 1 by omega) found.inside used found.used (sameLid _ key)
  rw [LFIndexer.copyEntry, ran, ok_bind]
  rcases Nat.lt_or_ge last input.numSlotsMinusOne with inRing | behind
  · have claimed (p : ℕ) := @claimed_setItem w (withItems w input items) last ⟨input.indices last, oid⟩
      (index_ne_sentinel fits here) p
    refine ⟨update items last ⟨input.indices last, oid⟩, extra, if_neg (by omega), suffix, ?_, ?_, ?_, copying.aside, ?_, ?_⟩
    · intro p below used other key later
      rcases eq_or_ne p last with rfl | apart
      · obtain rfl : oid = other := Option.some.inj (here.symm.trans key)
        rw [update_self]
      · rw [update_of_ne apart]
        rcases split other later with rfl | before
        · exact absurd (sameSlot p below used key) apart
        · exact copying.copied p below used other key before
    · intro p taken
      rcases eq_or_ne p last with rfl | apart
      · exact ⟨inRing, found.used, oid, here, update_self ..⟩
      · rw [update_of_ne apart]
        exact copying.only p (((claimed p).mp taken).resolve_right apart)
    · intro p untaken
      have apart : p ≠ last := fun same => untaken ((claimed p).mpr (Or.inr same))
      rw [update_of_ne apart]
      exact copying.free p fun before => untaken ((claimed p).mpr (Or.inl before))
    · intro lid other key later
      rcases split other later with rfl | before
      · rw [sameLid lid key]
        exact Or.inl ⟨last, update_self ..⟩
      · rcases copying.kept lid other key before with ⟨p, entry⟩ | member
        · rcases eq_or_ne p last with rfl | apart
          · -- What lies in this slot already is what is copied to it.
            have claimed : (withItems w input items).Claimed w p := by
              rw [Claimed]
              change (items p).index ≠ _
              rw [entry]
              exact index_ne_sentinel fits key
            obtain ⟨_, _, oid', key', entry'⟩ := copying.only p claimed
            obtain rfl : oid = oid' := Option.some.inj (here.symm.trans key')
            refine Or.inl ⟨p, ?_⟩
            rw [update_self, ← entry', entry]
          · exact Or.inl ⟨p, (update_of_ne apart ..).trans entry⟩
        · exact Or.inr member
    · have one := @claimedCount_setItem_le w (withItems w input items) last ⟨input.indices last, oid⟩
      change ((withItems w input items).setItem last _).claimedCount w + extra.length + rest.length ≤ _
      omega
  · refine ⟨items, extra ++ [(oid, input.indices last)], if_pos behind, suffix, ?_, copying.only, copying.free, ?_, ?_, ?_⟩
    · intro p below used other key later
      rcases split other later with rfl | before
      · have := sameSlot p below used key
        omega
      · exact copying.copied p below used other key before
    · intro pair member
      rcases List.mem_append.mp member with before | new
      · exact copying.aside pair before
      · obtain rfl := List.mem_singleton.mp new
        exact here
    · intro lid other key later
      rcases split other later with rfl | before
      · rw [sameLid lid key]
        exact Or.inr (List.mem_append_right _ (List.mem_singleton_self _))
      · exact (copying.kept lid other key before).imp_right (List.mem_append_left _)
    · simp only [List.length_append, List.length_singleton]
      omega

/-- Over claimed slots of the ring a probe goes up. -/
theorem way_of_claimed {a : ℕ} (le : a ≤ p) (inRing : p < s.numSlotsMinusOne)
    (claimed : ∀ j, a ≤ j → j < p → s.Claimed w j) : s.Way w a p := by
  induction p, le using Nat.le_induction with
  | base => exact .here a
  | succ p le ih =>
    have up : succMod s.numSlotsMinusOne p = p + 1 := Nat.mod_eq_of_lt inRing
    rw [← up]
    exact (ih (by omega) fun j from_start before => claimed j from_start (by omega)).onward (claimed p le (by omega))

/-- After the first loop the slots before an entry, from its home on, are claimed as they were taken in the input. -/
theorem Copying.filling (copying : Copying w input [] extra items) (full : IdIndexer.Full hash input)
    (fits : input.keys.length < 2 ^ w) : Filling hash w input extra items where
  keyed := by
    intro p claimed
    obtain ⟨_, _, oid, key, entry⟩ := copying.only p claimed
    rwa [entry]
  placed := by
    intro p claimed
    obtain ⟨inRing, used, oid, key, entry⟩ := copying.only p claimed
    have entryNum := full.entryNum
    have lookups := full.lookups
    have below : p < input.table.last := show p < input.entryNum - 1 by omega
    have place := full.ordered.home p below used
    rw [show IdIndexer.homeOf hash input (input.table.item p) = _ from IdIndexer.homeOf_of_getElem? key] at place
    change ((input.home hash oid : ℕ) : ℤ) + input.distances p = p at place
    rw [entry]
    apply way_of_claimed (show input.home hash oid ≤ p by omega) inRing
    intro j from_home before
    have chain := full.ordered.chain below (p - j) (by omega)
    rw [show p - (p - j) = j by omega] at chain
    change input.distances p - _ ≤ input.distances j at chain
    have usedJ : 0 ≤ input.distances j := by omega
    have member := (full.holds (input.indices j)).mp ⟨j, show j < input.entryNum - 1 by omega, usedJ, rfl⟩
    have keyed := List.getElem?_eq_getElem (full.keyed _ member)
    rw [Claimed]
    change (items j).index ≠ _
    rw [copying.copied j (by omega) usedJ _ keyed (by simp)]
    exact index_ne_sentinel fits keyed
  free := copying.free
  aside := copying.aside
  kept := fun lid oid key => copying.kept lid oid key (by simp)
  count := copying.count

theorem Filling.sound (filling : Filling hash w input [] items) (full : IdIndexer.Full hash input)
    (fits : input.keys.length < 2 ^ w) (ring : 0 < input.numSlotsMinusOne) (small : input.entryNum ≤ 2 ^ 32) :
    Sound hash w (withItems w input items) where
  toShape := shape_withItems full ring small
  fits := by
    rw [sentinel]
    change input.keys.length ≤ 2 ^ w - 1
    omega
  room := by
    change input.keys.length ≤ max (5 * input.keys.length / 4 + 1) 1024
    omega
  placed := filling.placed
  keyed := by
    intro p claimed
    have key := filling.keyed p claimed
    refine ⟨(List.getElem?_eq_some_iff.mp key).1, ?_⟩
    change input.keys.getD (items p).index _ = (items p).key
    rw [List.getD_eq_getElem?_getD, key]
    rfl
  stored := by
    intro ind below
    have key : input.keys[ind]? = some (input.keys[ind]) := List.getElem?_eq_getElem below
    obtain ⟨p, entry⟩ := (filling.kept ind _ key).resolve_right (by simp)
    refine ⟨p, entry.trans ?_⟩
    change _ = IndexKeyItem.mk ind (input.keys.getD ind _)
    rw [List.getD_eq_getElem?_getD, key]
    rfl
  free := filling.free

/-- `build_lf_indexer` ends with a sound table whose ring has a free slot. -/
theorem build_sound (full : IdIndexer.Full hash input) (distinct : input.keys.Nodup) (fits : input.keys.length < 2 ^ w)
    (buckets : 2 ≤ input.numSlotsMinusOne) (small : input.entryNum ≤ 2 ^ 32) :
    ∃ items, Returns (build hash w input) (withItems w input items) ∧ Sound hash w (withItems w input items) ∧
      ∃ p < input.numSlotsMinusOne, ¬ (withItems w input items).Claimed w p := by
  have load := full.load
  rw [full.counted, Finset.card_range] at load
  have entryNum := full.entryNum
  have lookups := full.lookups
  have start : Copying w input input.keys [] fun _ => ⟨sentinel w, 0⟩ := by
    refine ⟨List.suffix_rfl, ?_, fun p claimed => absurd rfl claimed, fun _ _ => rfl, by simp, ?_, ?_⟩
    · exact fun p _ _ oid key missing => absurd (List.mem_of_getElem? key) missing
    · exact fun lid oid key missing => absurd (List.mem_of_getElem? key) missing
    · have none : claimedCount w (withItems w input fun _ => ⟨sentinel w, 0⟩) = 0 :=
        Finset.card_eq_zero.mpr (Finset.filter_false_of_mem fun p _ => not_not_intro rfl)
      rw [none]
      simp
  obtain ⟨_, copied, items, extra, rfl, copying⟩ := Returns.foldlM (fun rest state => ∃ items extra,
    state = (withItems w input items, extra) ∧ Copying w input rest extra items) (by
      rintro oid rest _ ⟨items, extra, rfl, copying⟩
      obtain ⟨items', extra', ran, copying'⟩ := copying.copyEntry full distinct fits
      exact ⟨_, Returns.congr (fun _ => ran) .const, items', extra', rfl, copying'⟩) ⟨_, [], rfl, start⟩
  obtain ⟨_, put, items', rfl, filling⟩ := @Returns.foldlM _ _ _
    (fun fuel lf pair => putExtra w lf pair.1 pair.2 fuel (input.home hash pair.1))
    (fun rest lf => ∃ items, lf = withItems w input items ∧ Filling hash w input rest items) (by
      rintro pair rest _ ⟨items, rfl, filling⟩
      obtain ⟨items', ran, filling'⟩ := filling.put full fits (by omega) small
      exact ⟨_, ran, items', rfl, filling'⟩) extra _ ⟨items, rfl, copying.filling full fits⟩
  refine ⟨items', ?_, filling.sound full fits (by omega) small, @exists_free w (withItems w input items') ?_⟩
  · apply Returns.congr _ put
    intro fuel
    have light : decide (5 * input.keys.length < 4 * input.entryNum) = true := decide_eq_true (by omega)
    rw [build, light, check_true, ok_bind]
    change (input.keys.foldlM (LFIndexer.copyEntry hash input) (withItems w input fun _ => ⟨sentinel w, 0⟩, []) >>= _) = _
    rw [copied.of_const]
    rfl
  · have count := filling.count
    change _ < input.numSlotsMinusOne
    rw [List.length_nil] at count
    omega

/-- An `LFIndexer` that is built from an `IdIndexer` answers as it does, whatever keys were added to it. -/
theorem build_agrees (run : IdIndexer.Run hash w (input, keys)) (buckets : 2 ≤ input.numSlotsMinusOne)
    (small : input.entryNum ≤ 2 ^ 32) (page : 0 < perPage) : ∃ lf, Returns (build hash w input) lf ∧
      lf.numElements = keys.length ∧
      (∀ oid, Returns (lf.getIndex w perPage hash oid) (if oid ∈ keys then some (keys.idxOf oid) else none)) ∧
      ∀ ind oid, keys[ind]? = some oid → lf.getKey ind = .ok oid := by
  obtain ⟨full, same, distinct, fits⟩ := run.full
  dsimp only at full same distinct fits
  subst same
  obtain ⟨items, ran, sound, free⟩ := build_sound full distinct fits buckets small
  have keyAt {ind : ℕ} {oid : ℤ} (here : input.keys[ind]? = some oid) : (withItems w input items).keys ind = oid := by
    change input.keys.getD ind _ = oid
    rw [List.getD_eq_getElem?_getD, here]
    rfl
  refine ⟨_, ran, rfl, fun oid => ?_, fun ind oid here => ?_⟩
  · split_ifs with member
    · obtain ⟨ind, below, here⟩ := List.mem_iff_getElem.mp member
      have here : input.keys[ind]? = some oid := (List.getElem?_eq_getElem below).trans (congrArg some here)
      obtain ⟨ret, below', key, answers⟩ := sound.getIndex_of_stored page below (keyAt here)
      have there : input.keys[ret]? = some input.keys[ret] := List.getElem?_eq_getElem below'
      have same : input.keys[ret] = oid := (keyAt there).symm.trans key
      rwa [IdIndexer.idxOf_of_getElem? distinct (there.trans (congrArg some same))]
    · apply sound.getIndex_of_missing page _ free
      intro ind below key
      have there : input.keys[ind]? = some input.keys[ind] := List.getElem?_eq_getElem below
      exact member (List.mem_of_getElem? (there.trans (congrArg some ((keyAt there).symm.trans key))))
  · have room := sound.room
    have below : ind < (withItems w input items).keysSize := (List.getElem?_eq_some_iff.mp here).1.trans_le room
    rw [getKey, if_pos below, keyAt here]

/-- Keys that are their own hash values. -/
def plain : Hashing ℤ where
  hasher := Int.toNat
  nextSizeOver := Nat.succ
  indexForHash := IdIndexer.plain.indexForHash
  le_nextSizeOver := Nat.le_succ
  nextSizeOver_lt := IdIndexer.plain.nextSizeOver_lt
  indexForHash_reset := IdIndexer.plain.indexForHash_reset
  indexForHash_lt := IdIndexer.plain.indexForHash_lt

/-- Two keys whose home is the last slot, the second one behind the ring. -/
theorem build_agrees_twoKeys : ∃ (input : IdIndexer ℤ) (lf : LFIndexer), input.indices 5 = 1 ∧
    Returns (build plain 32 input) lf ∧ Returns (lf.getIndex 32 256 plain 9) (some 1) ∧
    Returns (lf.getIndex 32 256 plain 14) none ∧ lf.getKey 1 = .ok 9 := by
  have start : IdIndexer.Run plain 32 ((IdIndexer.resetToEmptyState : IdIndexer ℤ), []) := .init rfl
  have first := start.step (@IdIndexer.Step.add _ _ plain 32 _ _ [] 1 0 true 4 (by decide) rfl)
  have second := first.step (@IdIndexer.Step.add _ _ plain 32 _ _ [4] 1 1 true 9 (by decide) rfl)
  obtain ⟨lf, ran, _, getIndex, getKey⟩ := @build_agrees plain 32 256 _ _ second (by decide) (by decide) (by decide)
  exact ⟨_, lf, rfl, ran, getIndex 9, getIndex 14, getKey 1 9 rfl⟩

end build

end LFIndexer

end Gbp
