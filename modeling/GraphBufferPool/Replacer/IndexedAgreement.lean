import GraphBufferPool.Replacer.IndexedSieve

/-! # The calls over indices and over sequences

A `ListArray` whose nodes are those of a sequence, with its values, and the index that names a place of the sequence.
From such a pair every sweep moves to such a pair, so that each call of the SIEVE replacers over indices agrees with
the call over sequences.
-/

namespace Gbp.Indexed

open Fuel
open Gbp.SieveReplacer_v3 (Call)

/-- The index names a place of the sequence: the front, a node of the pool, or none. -/
structure Names (capacity p : ℕ) (q : ListIndex) : Prop where
  index : p = ListArray.encode capacity q
  inside : ∀ i, q = .node i → i < capacity

/-- The list has the nodes and the values of the sequence. -/
structure Refines (capacity : ℕ) (list : ListArray ℕ) (nodes : Gbp.ListArray) : Prop where
  wellFormed : list.WellFormed nodes.nodes
  size : list.capacity = capacity
  bound : nodes.capacity = capacity
  val : list.val = nodes.val

variable {capacity p i : ℕ} {q : ListIndex} {list : ListArray ℕ} {nodes : Gbp.ListArray}

theorem Names.eq_head_iff (names : Names capacity p q) (fits : capacity < indexRange - 2) :
    p = ListArray.head capacity ↔ q = .head := by
  have first := ListArray.head_eq fits
  have bound := ListArray.lt_invalid fits
  rw [names.index]
  cases q with
  | head => exact iff_of_true rfl rfl
  | node i =>
    have inside := names.inside i rfl
    refine iff_of_false (fun same => ?_) (by simp)
    rw [ListArray.encode, first] at same
    omega
  | invalid =>
    refine iff_of_false (fun same => ?_) (by simp)
    rw [ListArray.encode, first] at same
    omega

/-- An index past the capacity names no node. -/
theorem Names.le_iff (names : Names capacity p q) (fits : capacity < indexRange - 2) :
    capacity ≤ p ↔ ∀ i, q ≠ .node i := by
  have first := ListArray.head_eq fits
  have bound := ListArray.lt_invalid fits
  rw [names.index]
  cases q with
  | head => exact iff_of_true first.ge (by simp)
  | node i =>
    have inside := names.inside i rfl
    refine iff_of_false (Nat.not_le.mpr inside) (by simp)
  | invalid => exact iff_of_true (Nat.le_of_lt (Nat.lt_of_succ_lt bound)) (by simp)

namespace Refines

theorem fits (refines : Refines capacity list nodes) : capacity < indexRange - 2 :=
  refines.size ▸ refines.wellFormed.fits

theorem inside (refines : Refines capacity list nodes) (linked : i ∈ nodes.nodes) : i < capacity :=
  refines.size ▸ refines.wellFormed.inside i linked

theorem inList (refines : Refines capacity list nodes) (within : i < capacity + 2) :
    list.inList i = nodes.inList i := by
  have linked := refines.wellFormed.inList_iff (refines.size.symm ▸ within)
  rw [Bool.eq_iff_iff, linked, Gbp.ListArray.inList, decide_eq_true_iff]

theorem getPrevNodeIndex (refines : Refines capacity list nodes) (inside : i < capacity) :
    Names capacity (list.getPrevNodeIndex i) (nodes.getPrevNodeIndex i) := by
  refine ⟨?_, fun j found => ?_⟩
  · rw [refines.wellFormed.getPrevNodeIndex_eq (refines.size.symm ▸ inside), refines.size]
    rfl
  · exact refines.inside ((Gbp.ListArray.prevIn_mem found).resolve_right (by simp))

theorem getTail (refines : Refines capacity list nodes) : Names capacity list.getTail nodes.getTail := by
  refine ⟨?_, fun j found => refines.inside (Gbp.ListArray.getTail_mem found)⟩
  rw [refines.wellFormed.getTail_eq nodes.val, refines.size]
  rfl

theorem sweepFrom (refines : Refines capacity list nodes) (inside : i < capacity) :
    Names capacity (list.sweepFrom i) (nodes.sweepFrom i) := by
  have prev := refines.getPrevNodeIndex inside
  have front := prev.eq_head_iff refines.fits
  unfold ListArray.sweepFrom Gbp.ListArray.sweepFrom
  rw [refines.size]
  by_cases first : nodes.getPrevNodeIndex i = .head
  · rw [if_pos first, if_pos (front.mpr first)]
    exact refines.getTail
  · rw [if_neg first, if_neg (first ∘ front.mp)]
    exact prev

theorem start (refines : Refines capacity list nodes) (names : Names capacity p q) :
    Names capacity (list.start p) (if q = .head then nodes.getTail else q) := by
  have front := names.eq_head_iff refines.fits
  unfold ListArray.start
  rw [refines.size]
  by_cases first : q = .head
  · rw [if_pos first, if_pos (front.mpr first)]
    exact refines.getTail
  · rw [if_neg first, if_neg (first ∘ front.mp)]
    exact names

theorem setValue (refines : Refines capacity list nodes) (i value : ℕ) :
    Refines capacity (list.setValue i value) (nodes.setValue i value) := by
  obtain ⟨wellFormed, size, bound, val⟩ := refines
  refine ⟨⟨wellFormed.fits, wellFormed.threaded, wellFormed.inside, wellFormed.ends⟩, size, bound, ?_⟩
  simp only [ListArray.setValue, Gbp.ListArray.setValue, val]

theorem call (refines : Refines capacity list nodes) (call : ListCall)
    (val : (call.relink list).val = (call.onNodes nodes).val) :
    Refines capacity (call.relink list) (call.onNodes nodes) := by
  obtain ⟨wellFormed, same⟩ := call.refines refines.wellFormed (refines.size.trans refines.bound.symm)
  have bound : (call.onNodes nodes).capacity = capacity := by
    refine Eq.trans ?_ refines.bound
    cases call <;>
      simp only [ListCall.onNodes, Gbp.ListArray.moveToFront, Gbp.ListArray.removeFromIndex, Gbp.ListArray.clean,
        Gbp.ListArray.new] <;> split_ifs <;> rfl
  exact ⟨wellFormed, same.trans bound, bound, val⟩

theorem moveToFront (refines : Refines capacity list nodes) (i : ℕ) :
    (list.moveToFront i).1 = (nodes.moveToFront i).1 ∧
      Refines capacity (list.moveToFront i).2 (nodes.moveToFront i).2 := by
  have limits := refines.size.trans refines.bound.symm
  have val := refines.val
  refine ⟨?_, refines.call (.moveToFront i) ?_⟩
  · unfold ListArray.moveToFront Gbp.ListArray.moveToFront
    rw [limits]
    split_ifs <;> rfl
  · unfold ListCall.relink ListCall.onNodes ListArray.moveToFront Gbp.ListArray.moveToFront
    dsimp only
    split_ifs <;> exact val

theorem removeFromIndex (refines : Refines capacity list nodes) (i : ℕ) :
    Refines capacity (list.removeFromIndex i).2 (nodes.removeFromIndex i) := by
  have val := refines.val
  refine refines.call (.removeFromIndex i) ?_
  unfold ListCall.relink ListCall.onNodes ListArray.removeFromIndex Gbp.ListArray.removeFromIndex
  dsimp only
  split_ifs <;> exact val

theorem clean (refines : Refines capacity list nodes) : Refines capacity list.clean nodes.clean :=
  refines.call .clean rfl

end Refines

/-- What an inner loop over sequences does: it stops at a node without a value, and lowers the value of any other before
it moves on. -/
structure Passes (lower : ℕ → ℕ) (loop : ℕ → Gbp.ListArray → ListIndex → Except Stop (ℕ × Gbp.ListArray)) : Prop where
  stop : ∀ fuel (nodes : Gbp.ListArray) i, nodes.val i = 0 → loop fuel nodes (.node i) = .ok (i, nodes)
  out : ∀ (nodes : Gbp.ListArray) i, nodes.val i ≠ 0 → loop 0 nodes (.node i) = .error .outOfFuel
  pass : ∀ fuel (nodes : Gbp.ListArray) i, nodes.val i ≠ 0 → loop (fuel + 1) nodes (.node i) =
    loop fuel (nodes.setValue i (lower (nodes.val i))) (nodes.sweepFrom i)
  bad : ∀ fuel nodes p, (∀ i, p ≠ .node i) → loop fuel nodes p = .error .badIndex

/-- Where the inner loops stop. -/
def Found (capacity : ℕ) (x : ℕ × ListArray ℕ) (y : ℕ × Gbp.ListArray) : Prop :=
  x.1 = y.1 ∧ y.1 < capacity ∧ Refines capacity x.2 y.2

/-- Where the outer loops stop, and the page tables that they leave. -/
def Broke {α : Type} (capacity : ℕ) (Inside : α → Prop) (x : α × ListArray ℕ × PageTable)
    (y : α × Gbp.ListArray × PageTable) : Prop :=
  x.1 = y.1 ∧ Inside y.1 ∧ Refines capacity x.2.1 y.2.1 ∧ x.2.2 = y.2.2

/-- The inner loops agree. -/
theorem Passes.agree {lower : ℕ → ℕ} {loop : ℕ → Gbp.ListArray → ListIndex → Except Stop (ℕ × Gbp.ListArray)}
    (passes : Passes lower loop) (refines : Refines capacity list nodes) (names : Names capacity p q) (fuel : ℕ) :
    Agree (Found capacity) (list.skip lower fuel p) (loop fuel nodes q) := by
  induction fuel generalizing list nodes p q with
  | zero =>
    rw [ListArray.skip, refines.size]
    by_cases past : capacity ≤ p
    · rw [if_pos past, passes.bad 0 nodes q ((names.le_iff refines.fits).mp past)]
      exact .error _
    · obtain ⟨i, rfl⟩ : ∃ i, q = .node i := by simpa using (names.le_iff refines.fits).not.mp past
      obtain rfl : p = i := names.index
      rw [if_neg past, refines.val]
      split_ifs with clear
      · rw [passes.stop 0 nodes p clear]
        exact .ok ⟨rfl, names.inside p rfl, refines⟩
      · rw [passes.out nodes p clear]
        exact .error _
  | succ fuel ih =>
    rw [ListArray.skip, refines.size]
    by_cases past : capacity ≤ p
    · rw [if_pos past, passes.bad _ nodes q ((names.le_iff refines.fits).mp past)]
      exact .error _
    · obtain ⟨i, rfl⟩ : ∃ i, q = .node i := by simpa using (names.le_iff refines.fits).not.mp past
      obtain rfl : p = i := names.index
      rw [if_neg past, refines.val]
      split_ifs with clear
      · rw [passes.stop _ nodes p clear]
        exact .ok ⟨rfl, names.inside p rfl, refines⟩
      · rw [passes.pass fuel nodes p clear]
        exact ih (refines.setValue p _) (refines.sweepFrom (names.inside p rfl))

/-- More fuel never changes where an inner loop stops. -/
theorem Passes.more {lower : ℕ → ℕ} {loop : ℕ → Gbp.ListArray → ListIndex → Except Stop (ℕ × Gbp.ListArray)}
    (passes : Passes lower loop) {fuel : ℕ} {result : ℕ × Gbp.ListArray} (ran : loop fuel nodes q = .ok result)
    (more : ℕ) : loop (fuel + more) nodes q = .ok result := by
  induction fuel generalizing nodes q with
  | zero =>
    cases q with
    | head | invalid =>
      rw [passes.bad _ _ _ (by simp)] at ran
      cases ran
    | node i =>
      by_cases clear : nodes.val i = 0
      · rw [passes.stop _ _ _ clear] at ran ⊢
        exact ran
      · rw [passes.out _ _ clear] at ran
        cases ran
  | succ fuel ih =>
    cases q with
    | head | invalid =>
      rw [passes.bad _ _ _ (by simp)] at ran
      cases ran
    | node i =>
      by_cases clear : nodes.val i = 0
      · rw [passes.stop _ _ _ clear] at ran ⊢
        exact ran
      · rw [passes.pass _ _ _ clear] at ran
        rw [Nat.succ_add, passes.pass _ _ _ clear]
        exact ih ran

/-- The marks of the linked nodes are some of those of all nodes. -/
theorem Refines.marks_le (refines : Refines capacity list nodes) : nodes.marks ≤ list.marks := by
  have within : nodes.nodes ⊆ List.range list.capacity := fun i linked =>
    List.mem_range.mpr (refines.size.symm ▸ refines.inside linked)
  obtain ⟨some, permuted, part⟩ := refines.wellFormed.nodup.subperm within
  unfold Gbp.ListArray.marks ListArray.marks
  rw [refines.val, ← (permuted.map nodes.val).sum_eq]
  exact (part.map nodes.val).sum_le_sum fun _ _ => Nat.zero_le _

/-- An inner loop that lowers every value it passes ends before its fuel does, from a linked node. -/
theorem Passes.exists_ok {lower : ℕ → ℕ} {loop : ℕ → Gbp.ListArray → ListIndex → Except Stop (ℕ × Gbp.ListArray)}
    (passes : Passes lower loop) (drops : ∀ value, value ≠ 0 → lower value < value) {fuel : ℕ}
    (distinct : nodes.nodes.Nodup) (linked : i ∈ nodes.nodes) (enough : nodes.marks < fuel) :
    ∃ result, loop fuel nodes (.node i) = .ok result := by
  induction fuel generalizing nodes i with
  | zero => omega
  | succ fuel ih =>
    by_cases clear : nodes.val i = 0
    · exact ⟨_, passes.stop _ _ _ clear⟩
    · obtain ⟨next, later, moved⟩ := Gbp.ListArray.exists_sweepFrom linked
      have lowered := drops _ clear
      have exchanged := Gbp.ListArray.marks_setValue distinct linked (lower (nodes.val i))
      rw [passes.pass _ _ _ clear, moved]
      apply ih
      · exact distinct
      · exact later
      · omega

/-- More fuel than there are marks changes nothing in such a loop, wherever it starts. -/
theorem Passes.enough {lower : ℕ → ℕ} {loop : ℕ → Gbp.ListArray → ListIndex → Except Stop (ℕ × Gbp.ListArray)}
    (passes : Passes lower loop) (drops : ∀ value, value ≠ 0 → lower value < value) {fuel : ℕ}
    (distinct : nodes.nodes.Nodup) (enough : nodes.marks < fuel) (q : ListIndex) :
    loop fuel nodes q = loop (nodes.marks + 1) nodes q := by
  cases q with
  | head | invalid => rw [passes.bad _ _ _ (by simp), passes.bad _ _ _ (by simp)]
  | node i =>
    by_cases linked : i ∈ nodes.nodes
    · obtain ⟨result, ran⟩ := passes.exists_ok drops distinct linked (Nat.lt_succ_self nodes.marks)
      obtain ⟨more, rfl⟩ := Nat.exists_eq_add_of_le enough
      rw [ran]
      exact passes.more ran more
    · obtain ⟨less, rfl⟩ : ∃ less, fuel = less + 1 := ⟨fuel - 1, by omega⟩
      by_cases clear : nodes.val i = 0
      · rw [passes.stop _ _ _ clear, passes.stop _ _ _ clear]
      · have lost : ∀ j, nodes.sweepFrom i ≠ .node j := by
          have nowhere : nodes.getPrevNodeIndex i = .invalid := (Gbp.ListArray.prevIn_eq_invalid_iff (by simp)).mpr linked
          simp [Gbp.ListArray.sweepFrom, nowhere]
        rw [passes.pass _ _ _ clear, passes.pass _ _ _ clear, passes.bad _ _ _ lost, passes.bad _ _ _ lost]

/-- Inner loops that lower every value agree with a fuel that the marks bound on either side. -/
theorem Passes.agree_marks {lower : ℕ → ℕ} {loop : ℕ → Gbp.ListArray → ListIndex → Except Stop (ℕ × Gbp.ListArray)}
    (passes : Passes lower loop) (drops : ∀ value, value ≠ 0 → lower value < value)
    (refines : Refines capacity list nodes) (names : Names capacity p q) :
    Agree (Found capacity) (list.skip lower (list.marks + 1) p) (loop (nodes.marks + 1) nodes q) := by
  rw [← passes.enough drops refines.wellFormed.nodup (Nat.lt_succ_of_le refines.marks_le) q]
  exact passes.agree refines names _

namespace SieveReplacer_v3

open Gbp.SieveReplacer_v3 (cleared cleared_sweepFrom)

theorem passes_skipMarked : Passes (· - 1) Gbp.SieveReplacer_v3.skipMarked where
  stop fuel nodes i clear := by
    cases fuel <;> rw [Gbp.SieveReplacer_v3.skipMarked, if_pos clear]
  out nodes i marked := by rw [Gbp.SieveReplacer_v3.skipMarked, if_neg marked]
  pass fuel nodes i marked := by
    rw [Gbp.SieveReplacer_v3.skipMarked, if_neg marked]
    rfl
  bad fuel nodes q other := by
    cases q with
    | node i => exact absurd rfl (other i)
    | head | invalid => cases fuel <;> rfl

theorem passes_skipReplaced :
    Passes (fun value => if value = 1 then 0 else value) Gbp.SieveReplacer_v3.skipReplaced where
  stop fuel nodes i clear := by
    cases fuel <;> rw [Gbp.SieveReplacer_v3.skipReplaced, if_pos clear]
  out nodes i marked := by rw [Gbp.SieveReplacer_v3.skipReplaced, if_neg marked]
  pass fuel nodes i marked := by
    have lowered : cleared nodes i = nodes.setValue i (if nodes.val i = 1 then 0 else nodes.val i) := by
      unfold cleared
      split_ifs
      · rfl
      · simp only [Gbp.ListArray.setValue, Function.update_eq_self]
    rw [Gbp.SieveReplacer_v3.skipReplaced, if_neg marked, cleared_sweepFrom, lowered]
  bad fuel nodes q other := by
    cases q with
    | node i => exact absurd rfl (other i)
    | head | invalid => cases fuel <;> rfl

end SieveReplacer_v3

namespace SieveReplacer_v3

/-- The replacer has the nodes, the values and the hand of the one over sequences. -/
structure Simulates (r : SieveReplacer_v3) (a : Gbp.SieveReplacer_v3) : Prop where
  list : Refines a.list.capacity r.list a.list
  pointer : Names a.list.capacity r.pointer a.pointer

/-- The same answer, and replacers that simulate one another. -/
def SameAnswer {α : Type} (x : α × SieveReplacer_v3) (y : α × Gbp.SieveReplacer_v3) : Prop :=
  x.1 = y.1 ∧ Simulates x.2 y.2

/-- The same frame and page table. -/
def SameVictim {α : Type} (x : α × SieveReplacer_v3 × PageTable) (y : α × Gbp.SieveReplacer_v3 × PageTable) : Prop :=
  x.1 = y.1 ∧ Simulates x.2.1 y.2.1 ∧ x.2.2 = y.2.2

variable {r : SieveReplacer_v3} {a : Gbp.SieveReplacer_v3}

theorem simulates_new (fits : capacity < indexRange - 2) : Simulates (new capacity) (.new capacity) where
  list := ⟨ListArray.wellFormed_new fits, rfl, rfl, rfl⟩
  pointer := ⟨rfl, nofun⟩

theorem Simulates.insert (simulates : Simulates r a) (m : ℕ) : Agree SameAnswer (r.insert m) (a.insert m) := by
  have stored := (simulates.list.setValue m 0).moveToFront m
  simp only [SieveReplacer_v3.insert, Gbp.SieveReplacer_v3.insert, simulates.list.size]
  split_ifs with past
  · exact .error _
  · rw [stored.1]
    refine (Agree.same _).bind fun _ _ _ => .ok ⟨rfl, ?_⟩
    have limit : ((a.list.setValue m 0).moveToFront m).2.capacity = a.list.capacity := stored.2.bound
    exact ⟨limit.symm ▸ stored.2, limit.symm ▸ simulates.pointer⟩

theorem Simulates.promote (simulates : Simulates r a) (m : ℕ) : Agree SameAnswer (r.promote m) (a.promote m) := by
  simp only [SieveReplacer_v3.promote, Gbp.SieveReplacer_v3.promote, simulates.list.size]
  split_ifs with past
  · exact .error _
  · exact .ok ⟨rfl, simulates.list.setValue m 1, simulates.pointer⟩

theorem Simulates.erase (simulates : Simulates r a) (m : ℕ) : SameAnswer (r.erase m) (a.erase m) := by
  have removed := simulates.list.removeFromIndex m
  refine ⟨rfl, ?_⟩
  have limit : (a.list.removeFromIndex m).capacity = a.list.capacity := removed.bound
  exact ⟨limit.symm ▸ removed, limit.symm ▸ simulates.pointer⟩

theorem Simulates.clean (simulates : Simulates r a) : SameAnswer r.clean a.clean :=
  ⟨rfl, simulates.list.clean, simulates.pointer⟩

theorem skipMarked_agree (refines : Refines capacity list nodes) (names : Names capacity p q) :
    Agree (Found capacity) (skipMarked list p) (Gbp.SieveReplacer_v3.skipMarked (nodes.marks + 1) nodes q) :=
  passes_skipMarked.agree_marks (fun _ positive => by omega) refines names

variable {pt : PageTable}

theorem victimLoop_agree (refines : Refines capacity list nodes) (names : Names capacity p q) (count : ℕ) :
    Agree (Broke capacity (· < capacity)) (victimLoop pt count list p)
      (Gbp.SieveReplacer_v3.victimLoop pt count nodes q) := by
  induction count generalizing pt list nodes p q with
  | zero => exact .error _
  | succ count ih =>
    rw [victimLoop, SieveReplacer_v3.victimLoop_succ]
    refine (skipMarked_agree refines names).bind ?_
    rintro ⟨i, list'⟩ ⟨_, nodes'⟩ ⟨rfl, inside, after⟩
    refine (Agree.same _).bind ?_
    rintro ⟨taken, table⟩ _ rfl
    cases taken with
    | true => exact .ok ⟨rfl, inside, after, rfl⟩
    | false => exact ih after (after.sweepFrom inside)

theorem replaceLoop_agree (fuel : ℕ) (refines : Refines capacity list nodes) (names : Names capacity p q) (count : ℕ) :
    Agree (Broke capacity (· < capacity)) (replaceLoop fuel pt count list p)
      (Gbp.SieveReplacer_v3.replaceLoop fuel pt count nodes q) := by
  induction count generalizing pt list nodes p q with
  | zero => exact .error _
  | succ count ih =>
    rw [replaceLoop, Gbp.SieveReplacer_v3.replaceLoop]
    refine (passes_skipReplaced.agree refines names fuel).bind ?_
    rintro ⟨i, list'⟩ ⟨_, nodes'⟩ ⟨rfl, inside, after⟩
    refine (Agree.same _).bind ?_
    rintro ⟨taken, table⟩ _ rfl
    cases taken with
    | true => exact .ok ⟨rfl, inside, after, rfl⟩
    | false => exact ih after (after.sweepFrom inside)

theorem batchLoop_agree (refines : Refines capacity list nodes) (names : Names capacity p q) (count : ℕ) :
    Agree (Broke capacity fun taken => ∀ i, taken = some i → i < capacity) (batchLoop count pt list p)
      (Gbp.SieveReplacer_v3.batchLoop count pt nodes q) := by
  induction count generalizing pt list nodes p q with
  | zero => exact .ok ⟨rfl, nofun, refines, rfl⟩
  | succ count ih =>
    rw [batchLoop, Gbp.SieveReplacer_v3.batchLoop]
    refine (skipMarked_agree refines names).bind ?_
    rintro ⟨i, list'⟩ ⟨_, nodes'⟩ ⟨rfl, inside, after⟩
    dsimp only
    split_ifs with held
    · exact ih after (after.sweepFrom inside)
    · refine (Agree.same _).bind ?_
      rintro ⟨taken, table⟩ _ rfl
      cases taken with
      | true =>
        refine (Agree.same _).bind ?_
        rintro ⟨deleted, table'⟩ _ rfl
        refine (Agree.same _).bind fun _ _ _ => .ok ⟨rfl, ?_, after, rfl⟩
        rintro _ ⟨⟩
        exact inside
      | false => exact ih after (after.sweepFrom inside)

/-- A frame is unlinked, and the hand moves in front of it. -/
theorem simulates_unlink (after : Refines capacity list nodes) (inside : i < capacity) :
    Simulates ⟨(list.removeFromIndex i).2, list.getPrevNodeIndex i⟩ ⟨nodes.removeFromIndex i, nodes.getPrevNodeIndex i⟩ := by
  have removed := after.removeFromIndex i
  have limit : (nodes.removeFromIndex i).capacity = capacity := removed.bound
  exact ⟨limit.symm ▸ removed, limit.symm ▸ after.getPrevNodeIndex inside⟩

theorem Simulates.victim (simulates : Simulates r a) (pt : PageTable) :
    Agree SameVictim (r.victim pt) (a.victim pt) := by
  have start := simulates.list.start simulates.pointer
  simp only [SieveReplacer_v3.victim, Gbp.SieveReplacer_v3.victim, simulates.list.size]
  generalize (if a.pointer = .head then a.list.getTail else a.pointer) = toEvict at start ⊢
  simp only [start.eq_head_iff simulates.list.fits]
  split_ifs with empty
  · exact .error _
  · refine (victimLoop_agree simulates.list start _).bind ?_
    rintro ⟨i, list, table⟩ ⟨_, nodes, _⟩ ⟨rfl, inside, after, rfl⟩
    exact .ok ⟨rfl, simulates_unlink after inside, rfl⟩

theorem Simulates.replace (simulates : Simulates r a) (fuel : ℕ) (pt : PageTable) :
    Agree SameVictim (r.replace fuel pt) (a.replace fuel pt) := by
  have start := simulates.list.start simulates.pointer
  simp only [SieveReplacer_v3.replace, Gbp.SieveReplacer_v3.replace, simulates.list.size]
  generalize (if a.pointer = .head then a.list.getTail else a.pointer) = toEvict at start ⊢
  simp only [start.eq_head_iff simulates.list.fits]
  split_ifs with empty
  · exact .error _
  · refine (replaceLoop_agree fuel simulates.list start _).bind ?_
    rintro ⟨i, list, table⟩ ⟨_, nodes, _⟩ ⟨rfl, inside, after, rfl⟩
    have marked := (after.setValue i 2).moveToFront i
    dsimp only at marked ⊢
    rw [marked.1]
    refine (Agree.same _).bind fun _ _ _ => .ok ⟨rfl, ?_, rfl⟩
    have limit : ((nodes.setValue i 2).moveToFront i).2.capacity = a.list.capacity := marked.2.bound
    exact ⟨limit.symm ▸ marked.2, limit.symm ▸ after.getPrevNodeIndex inside⟩

theorem corresponds : Corresponds Simulates where
  insert _ _ m simulates := simulates.insert m
  promote _ _ m simulates := simulates.promote m
  victim _ _ _ pt simulates := simulates.victim pt

/-- The replacer after a call. -/
def call (r : SieveReplacer_v3) : Call → Except Stop SieveReplacer_v3
  | .insert m => do return (← r.insert m).2
  | .promote m => do return (← r.promote m).2
  | .victim pt => do return (← r.victim pt).2.1
  | .replace fuel pt => do return (← r.replace fuel pt).2.1
  | .erase m => .ok (r.erase m).2
  | .clean => .ok r.clean.2

/-- Every call does over indices what it does over sequences. -/
theorem Simulates.call (simulates : Simulates r a) (c : Call) : Agree Simulates (r.call c) (a.call c) := by
  cases c with
  | insert m => exact (simulates.insert m).bind fun _ _ same => .ok same.2
  | promote m => exact (simulates.promote m).bind fun _ _ same => .ok same.2
  | victim pt => exact (simulates.victim pt).bind fun _ _ same => .ok same.2.1
  | replace fuel pt => exact (simulates.replace fuel pt).bind fun _ _ same => .ok same.2.1
  | erase m => exact .ok (simulates.erase m).2
  | clean => exact .ok simulates.clean.2

/-- The same result and vector of frames as well. -/
def SameBatch (x : Bool × List ℕ × SieveReplacer_v3 × PageTable) (y : Bool × List ℕ × Gbp.SieveReplacer_v3 × PageTable) :
    Prop := x.1 = y.1 ∧ SameVictim x.2 y.2

theorem Simulates.batchVictims (simulates : Simulates r a) (pageNum : ℕ) (pt : PageTable) (mpageIds : List ℕ) :
    Agree SameBatch (SieveReplacer_v3.batchVictims pageNum r pt mpageIds)
      (Gbp.SieveReplacer_v3.batchVictims pageNum a pt mpageIds) := by
  induction pageNum generalizing r a pt mpageIds with
  | zero => exact .ok ⟨rfl, rfl, simulates, rfl⟩
  | succ pageNum ih =>
    rw [SieveReplacer_v3.batchVictims, Gbp.SieveReplacer_v3.batchVictims, simulates.list.size]
    refine (batchLoop_agree simulates.list (simulates.list.start simulates.pointer) _).bind ?_
    rintro ⟨taken, list, table⟩ ⟨_, nodes, _⟩ ⟨rfl, inside, after, rfl⟩
    cases taken with
    | none =>
      have limit : nodes.capacity = a.list.capacity := after.bound
      exact .ok ⟨rfl, rfl, ⟨limit.symm ▸ after, limit.symm ▸ simulates.pointer⟩, rfl⟩
    | some i => exact ih (simulates_unlink after (inside i rfl)) table (mpageIds ++ [i])

end SieveReplacer_v3

namespace SieveReplacer_v2

/-- The replacer has the nodes, the values and the hand of the one over sequences. -/
structure Simulates (r : SieveReplacer_v2) (a : Gbp.SieveReplacer_v2) : Prop where
  list : Refines a.list.capacity r.list a.list
  pointer : Names a.list.capacity r.pointer a.pointer

variable {r : SieveReplacer_v2} {a : Gbp.SieveReplacer_v2} {pt : PageTable}

theorem simulates_new (fits : capacity < indexRange - 2) : Simulates (new capacity) (.new capacity) where
  list := ⟨ListArray.wellFormed_new fits, rfl, rfl, rfl⟩
  pointer := ⟨rfl, nofun⟩

theorem passes_skipVisited : Passes (fun _ => 0) Gbp.SieveReplacer_v2.skipVisited where
  stop fuel nodes i clear := by
    cases fuel <;> rw [Gbp.SieveReplacer_v2.skipVisited, if_pos clear]
  out nodes i marked := by rw [Gbp.SieveReplacer_v2.skipVisited, if_neg marked]
  pass fuel nodes i marked := by
    rw [Gbp.SieveReplacer_v2.skipVisited, if_neg marked]
    rfl
  bad fuel nodes q other := by
    cases q with
    | node i => exact absurd rfl (other i)
    | head | invalid => cases fuel <;> rfl

theorem victimLoop_agree (refines : Refines capacity list nodes) (names : Names capacity p q) (count : ℕ) :
    Agree (Broke capacity (· < capacity)) (victimLoop pt count list p)
      (Gbp.SieveReplacer_v2.victimLoop pt count nodes q) := by
  induction count generalizing pt list nodes p q with
  | zero => exact .error _
  | succ count ih =>
    rw [victimLoop, Gbp.SieveReplacer_v2.victimLoop]
    refine (passes_skipVisited.agree_marks (fun _ positive => Nat.pos_of_ne_zero positive) refines names).bind ?_
    rintro ⟨i, list'⟩ ⟨_, nodes'⟩ ⟨rfl, inside, after⟩
    refine (Agree.same _).bind ?_
    rintro ⟨taken, table⟩ _ rfl
    cases taken with
    | true => exact .ok ⟨rfl, inside, after, rfl⟩
    | false => exact ih after (after.sweepFrom inside)

theorem Simulates.insert (simulates : Simulates r a) (m : ℕ) :
    Agree (fun x y => x.1 = y.1 ∧ Simulates x.2 y.2) (r.insert m) (a.insert m) := by
  have stored := (simulates.list.setValue m 0).moveToFront m
  simp only [SieveReplacer_v2.insert, Gbp.SieveReplacer_v2.insert, simulates.list.size]
  by_cases outside : a.list.capacity + 2 ≤ m
  · simp only [if_pos outside]
    exact .error _
  · simp only [if_neg outside, simulates.list.inList (Nat.lt_of_not_le outside)]
    split_ifs with linked past
    · exact .ok ⟨rfl, simulates⟩
    · exact .error _
    · rw [stored.1]
      refine (Agree.same _).bind fun _ _ _ => .ok ⟨rfl, ?_⟩
      have limit : ((a.list.setValue m 0).moveToFront m).2.capacity = a.list.capacity := stored.2.bound
      exact ⟨limit.symm ▸ stored.2, limit.symm ▸ simulates.pointer⟩

theorem Simulates.promote (simulates : Simulates r a) (m : ℕ) :
    Agree (fun x y => x.1 = y.1 ∧ Simulates x.2 y.2) (r.promote m) (a.promote m) := by
  simp only [SieveReplacer_v2.promote, Gbp.SieveReplacer_v2.promote, simulates.list.size]
  by_cases outside : a.list.capacity + 2 ≤ m
  · simp only [if_pos outside]
    exact .error _
  · simp only [if_neg outside, simulates.list.inList (Nat.lt_of_not_le outside)]
    split_ifs with linked past
    · exact .error _
    · exact .ok ⟨rfl, simulates.list.setValue m 1, simulates.pointer⟩
    · exact .ok ⟨rfl, simulates⟩

theorem corresponds : Corresponds Simulates where
  insert _ _ m simulates := simulates.insert m
  promote _ _ m simulates := simulates.promote m
  victim fuel r a pt simulates := by
    have start := simulates.list.start simulates.pointer
    simp only [Policy.victim, victim, Gbp.SieveReplacer_v2.victim, simulates.list.size]
    generalize (if a.pointer = .head then a.list.getTail else a.pointer) = toEvict at start ⊢
    simp only [start.eq_head_iff simulates.list.fits]
    split_ifs with empty
    · exact .error _
    · refine (victimLoop_agree simulates.list start _).bind ?_
      rintro ⟨i, list, table⟩ ⟨_, nodes, _⟩ ⟨rfl, inside, after, rfl⟩
      have removed := after.removeFromIndex i
      have limit : (nodes.removeFromIndex i).capacity = a.list.capacity := removed.bound
      exact .ok ⟨rfl, ⟨limit.symm ▸ removed, limit.symm ▸ after.getPrevNodeIndex inside⟩, rfl⟩

end SieveReplacer_v2

end Gbp.Indexed
