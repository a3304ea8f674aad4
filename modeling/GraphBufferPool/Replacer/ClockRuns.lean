import GraphBufferPool.Replacer.Clocks
import GraphBufferPool.Replacer.EvictionServer

/-! # The CLOCK replacers with nothing to evict

`ClockReplacer` goes from the tail towards the head and starts again wherever it lowers a counter, `ClockReplacer_v2`
goes round the array. Both end at an evictable frame where there is one, since every start again and every
second round uses up a counter or a flag. Neither notices that there is none: the one walks on to
`head_`, the other never stops.
-/

namespace Gbp

open Fuel

/-- A single `Victim` ends. It takes an evictable tracked frame, or there is none, and the frames stay tracked. -/
def FailsCleanly {R : Type} [Policy R] (Tracked : R → ℕ → Prop) (r : R) (pt : PageTable) : Prop :=
  ∃ taken r', Returns (fun fuel => Policy.victim fuel r pt) (taken, r', pt.lockFound taken) ∧
    match taken with
    | some m => Tracked r m ∧ pt.Evictable m ∧ ∀ k, Tracked r' k ↔ Tracked r k ∧ k ≠ m
    | none => (∀ m, Tracked r m → ¬ pt.Evictable m) ∧ ∀ k, Tracked r' k ↔ Tracked r k

theorem prevNode_append {before : Option ℕ} {xs ys : List ℕ} {i : ℕ} (first : i ∉ xs) :
    prevNode before (xs ++ i :: ys) i = (xs.getLast?).or before := by
  induction xs generalizing before with
  | nil => simp [prevNode]
  | cons x rest ih =>
    obtain ⟨other, later⟩ := not_or.mp (List.mem_cons.not.mp first)
    rw [List.cons_append, prevNode, if_neg (Ne.symm other), ih later, List.getLast?_cons]
    cases rest.getLast? <;> rfl

theorem prevNode_mem {before : Option ℕ} {xs : List ℕ} {i j : ℕ} (found : prevNode before xs i = some j) :
    j ∈ xs ∨ before = some j := by
  induction xs generalizing before with
  | nil => cases found
  | cons x rest ih =>
    rw [prevNode] at found
    split_ifs at found
    · exact Or.inr found
    · rcases ih found with later | same
      · exact Or.inl (List.mem_cons_of_mem _ later)
      · cases same
        exact Or.inl (List.mem_cons_self ..)

namespace ClockReplacer

variable {r r' : ClockReplacer} {pt pt' : PageTable} {tracked : Finset ℕ} {capacity : ℕ}

/-- The frame has a node. -/
def Tracked (r : ClockReplacer) (m : ℕ) : Prop := m ∈ r.nodes

/-- The tracked frames are the ones in the map, and each has one node. -/
structure Tracking (r : ClockReplacer) (tracked : Finset ℕ) : Prop where
  nodup : r.nodes.Nodup
  nodes : ∀ m, m ∈ r.nodes ↔ m ∈ tracked
  map : r.map = tracked

/-- A sweep moves nodes to the front and takes one of them. -/
theorem victimLoop_perm {fuel : ℕ} {start : Option ℕ} {result : ℕ × ClockReplacer × PageTable}
    (linked : ∀ i ∈ start, i ∈ r.nodes) (ran : victimLoop fuel pt r start = .ok result) :
    result.1 ∈ r.nodes ∧ result.2.1.nodes.Perm r.nodes := by
  induction fuel generalizing pt r start with
  | zero => cases start <;> cases ran
  | succ fuel ih =>
    cases start with
    | none => cases ran
    | some i =>
      have here := linked i rfl
      rw [victimLoop] at ran
      split_ifs at ran with marked
      · have moved : (i :: r.nodes.erase i).Perm r.nodes := (List.perm_cons_erase here).symm
        obtain ⟨member, perm⟩ := ih (fun j last => List.mem_of_getLast? last) ran
        exact ⟨moved.subset member, perm.trans moved⟩
      · obtain ⟨⟨taken, table⟩, _, ran⟩ := bind_eq_ok.mp ran
        cases taken with
        | true =>
          cases ran
          exact ⟨here, .refl _⟩
        | false => exact ih (fun j before => (prevNode_mem before).resolve_right (by simp)) ran

theorem Tracking.of_run (run : Tracks capacity r tracked) : Tracking r tracked := by
  induction run with
  | new constructed =>
    obtain ⟨fresh, rfl⟩ := constructed
    exact ⟨.nil, by simp [new], rfl⟩
  | @insert r r' tracked m inserted _ ran ih =>
    have result : r.insert m = (inserted, r') := Except.ok.inj ran
    unfold insert at result
    split_ifs at result with known
    · cases result
      rw [Finset.insert_eq_of_mem (ih.map ▸ known)]
      exact ih
    · cases result
      have fresh : m ∉ r.nodes := fun there => known (ih.map ▸ (ih.nodes m).mp there)
      exact ⟨List.nodup_cons.mpr ⟨fresh, ih.nodup⟩, fun k => by simp [ih.nodes], by simp [ih.map]⟩
  | @promote r r' tracked m promoted _ ran ih =>
    have result : r.promote m = (promoted, r') := Except.ok.inj ran
    unfold promote at result
    split_ifs at result <;> cases result
    · exact ⟨ih.nodup, ih.nodes, ih.map⟩
    · exact ih
    · exact ih
  | @victim r r' tracked fuel pt pt' taken _ ran ih =>
    have ran : victim fuel r pt = .ok (taken, r', pt') := ran
    unfold victim at ran
    split_ifs at ran with empty
    · cases ran
      exact ih
    · obtain ⟨⟨i, after, table⟩, swept, ran⟩ := bind_eq_ok.mp ran
      have map : after.map = r.map := victimLoop_map swept
      obtain ⟨member, perm⟩ := victimLoop_perm (fun j last => List.mem_of_getLast? last) swept
      have nodup := perm.nodup_iff.mpr ih.nodup
      cases ran
      refine ⟨nodup.erase i, fun k => ?_, by simp [untrack, map, ih.map]⟩
      rw [untrack, Finset.mem_erase, nodup.mem_erase_iff, perm.mem_iff, ih.nodes]

/-- The counters that are left on the nodes. -/
def marks (r : ClockReplacer) : ℕ := (r.nodes.map r.freq).sum

/-- Lowering the counter of a node uses up one mark. -/
theorem marks_lowered {i : ℕ} (nodup : r.nodes.Nodup) (here : i ∈ r.nodes) (marked : 1 ≤ r.freq i) :
    marks { r with freq := Function.update r.freq i (r.freq i - 1), nodes := i :: r.nodes.erase i } + 1 = r.marks := by
  have others : (r.nodes.erase i).map (Function.update r.freq i (r.freq i - 1)) = (r.nodes.erase i).map r.freq :=
    List.map_congr_left fun k later => Function.update_of_ne (nodup.mem_erase_iff.mp later).1 ..
  have before := List.sum_map_erase r.freq here
  simp only [marks, List.map_cons, List.sum_cons, others, Function.update_self]
  omega

/-- From any place with no evictable frame behind it the sweep ends: at an evictable frame, or past the first node. -/
theorem victimLoop_ends {n : ℕ} {passed rest : List ℕ} (nodup : r.nodes.Nodup) (line : r.nodes.reverse = passed ++ rest)
    (kept : ∀ m ∈ passed, ¬ pt.Evictable m) (inOrder : ∀ m ∈ r.nodes, pt.InOrder m)
    (enough : r.marks * (r.nodes.length + 1) + rest.length ≤ n) :
    (∃ i ∈ r.nodes, pt.Evictable i ∧ ∃ r', r'.nodes.Perm r.nodes ∧
        ∀ fuel ≥ n, victimLoop fuel pt r rest.head? = .ok (i, r', pt.lockFrame (pt.ptes i).page i)) ∨
      (∀ m ∈ r.nodes, ¬ pt.Evictable m) ∧ ∀ fuel ≥ n, victimLoop fuel pt r rest.head? = .error .nullNode := by
  induction n generalizing r passed rest with
  | zero =>
    have none : rest = [] := List.length_eq_zero_iff.mp (by omega)
    subst none
    rw [List.append_nil] at line
    refine Or.inr ⟨fun m member => kept m (line ▸ List.mem_reverse.mpr member), fun fuel _ => ?_⟩
    cases fuel <;> rfl
  | succ n ih =>
    cases rest with
    | nil =>
      rw [List.append_nil] at line
      refine Or.inr ⟨fun m member => kept m (line ▸ List.mem_reverse.mpr member), fun fuel _ => ?_⟩
      cases fuel <;> rfl
    | cons i rest =>
      have here : i ∈ r.nodes := List.mem_reverse.mp (line ▸ by simp)
      rw [List.length_cons] at enough
      by_cases marked : 1 ≤ r.freq i
      · -- the node goes to the front with one mark less, and the walk starts again
        let lowered : ClockReplacer :=
          { r with freq := Function.update r.freq i (r.freq i - 1), nodes := i :: r.nodes.erase i }
        have moved : lowered.nodes.Perm r.nodes := (List.perm_cons_erase here).symm
        have fewer : lowered.marks + 1 = r.marks := marks_lowered nodup here marked
        have step (fuel : ℕ) : victimLoop (fuel + 1) pt r (i :: rest).head? =
            victimLoop fuel pt lowered lowered.nodes.reverse.head? := by
          rw [List.head?_cons, victimLoop, if_pos marked, List.head?_reverse]
        have less : lowered.marks * (lowered.nodes.length + 1) + lowered.nodes.reverse.length ≤ n := by
          rw [← fewer, Nat.succ_mul] at enough
          rw [List.length_reverse, moved.length_eq]
          omega
        rcases ih (moved.nodup_iff.mpr nodup) (List.nil_append _).symm (by simp)
          (fun m member => inOrder m (moved.subset member)) less with ⟨j, member, evictable, r', perm, ran⟩ | ⟨none, ran⟩
        · refine Or.inl ⟨j, moved.subset member, evictable, r', perm.trans moved, fun fuel more => ?_⟩
          obtain ⟨fuel, rfl⟩ := Nat.exists_eq_succ_of_ne_zero (Nat.ne_zero_of_lt more)
          rw [step]
          exact ran fuel (Nat.le_of_succ_le_succ more)
        · refine Or.inr ⟨fun m member => none m (moved.symm.subset member), fun fuel more => ?_⟩
          obtain ⟨fuel, rfl⟩ := Nat.exists_eq_succ_of_ne_zero (Nat.ne_zero_of_lt more)
          rw [step]
          exact ran fuel (Nat.le_of_succ_le_succ more)
      · by_cases evictable : pt.Evictable i
        · refine Or.inl ⟨i, here, evictable, r, .refl _, fun fuel more => ?_⟩
          obtain ⟨fuel, rfl⟩ := Nat.exists_eq_succ_of_ne_zero (Nat.ne_zero_of_lt more)
          rw [List.head?_cons, victimLoop, if_neg marked, evictable.lockVictim]
          rfl
        · have before : prevNode none r.nodes i = rest.head? := by
            have order : r.nodes = rest.reverse ++ i :: passed.reverse := by
              rw [← List.reverse_reverse r.nodes, line]
              simp
            have first : i ∉ rest.reverse := fun early => by
              rw [order, List.nodup_append] at nodup
              exact nodup.2.2 i early i (by simp) rfl
            rw [order, prevNode_append first, List.getLast?_reverse, Option.or_none]
          have step (fuel : ℕ) : victimLoop (fuel + 1) pt r (i :: rest).head? = victimLoop fuel pt r rest.head? := by
            rw [List.head?_cons, victimLoop, if_neg marked, (inOrder i here).lockVictim evictable, ← before]
            rfl
          have passes : ∀ m ∈ passed ++ [i], ¬ pt.Evictable m := by
            intro m member
            rcases List.mem_append.mp member with early | same
            · exact kept m early
            · exact List.mem_singleton.mp same ▸ evictable
          rcases @ih r (passed ++ [i]) rest nodup (line.trans (by simp)) passes inOrder (by omega) with ⟨j, member, evictable, r', perm, ran⟩ |
            ⟨none, ran⟩
          · refine Or.inl ⟨j, member, evictable, r', perm, fun fuel more => ?_⟩
            obtain ⟨fuel, rfl⟩ := Nat.exists_eq_succ_of_ne_zero (Nat.ne_zero_of_lt more)
            rw [step]
            exact ran fuel (Nat.le_of_succ_le_succ more)
          · refine Or.inr ⟨none, fun fuel more => ?_⟩
            obtain ⟨fuel, rfl⟩ := Nat.exists_eq_succ_of_ne_zero (Nat.ne_zero_of_lt more)
            rw [step]
            exact ran fuel (Nat.le_of_succ_le_succ more)

/-- `Victim` fails cleanly if and only if nothing is tracked or some tracked frame is evictable. -/
theorem failsCleanly_iff (tracking : Tracking r tracked) (inOrder : ∀ m ∈ tracked, pt.InOrder m) :
    FailsCleanly Tracked r pt ↔ tracked = ∅ ∨ ∃ m ∈ tracked, pt.Evictable m := by
  by_cases empty : r.nodes = []
  · have nothing : tracked = ∅ := by
      refine Finset.eq_empty_of_forall_notMem fun m member => ?_
      have there := (tracking.nodes m).mpr member
      simp [empty] at there
    refine iff_of_true ⟨none, r, .congr (fun fuel => if_pos empty) .const, fun m member => ?_, fun k => Iff.rfl⟩
      (Or.inl nothing)
    simp [Tracked, empty] at member
  · obtain ⟨first, rest, filled⟩ := List.exists_cons_of_ne_nil empty
    have tracked_ne : tracked ≠ ∅ := by
      rintro rfl
      simpa [filled] using (tracking.nodes first).mp
    have found : (∃ m ∈ tracked, pt.Evictable m) ↔ ∃ m ∈ r.nodes, pt.Evictable m := by
      simp only [tracking.nodes]
    rw [found]
    rcases @victimLoop_ends r pt _ [] r.nodes.reverse tracking.nodup (List.nil_append _).symm (by simp)
      (fun m member => inOrder m ((tracking.nodes m).mp member)) le_rfl with ⟨i, member, evictable, r', perm, ran⟩ |
        ⟨none, ran⟩
    · let after : ClockReplacer := { r' with nodes := r'.nodes.erase i, map := r'.map.erase i }
      have ended : Returns (fun fuel => Policy.victim fuel r pt) (some i, after, pt.lockFound (some i)) := by
        refine ⟨r.marks * (r.nodes.length + 1) + r.nodes.reverse.length, fun fuel enough => ?_⟩
        have swept := ran fuel enough
        rw [List.head?_reverse] at swept
        simp only [Policy.victim, victim, if_neg empty, swept]
        rfl
      refine iff_of_true ⟨some i, after, ended, member, evictable, fun k => ?_⟩ (Or.inr ⟨i, member, evictable⟩)
      change k ∈ r'.nodes.erase i ↔ k ∈ r.nodes ∧ k ≠ i
      rw [(perm.nodup_iff.mpr tracking.nodup).mem_erase_iff, perm.mem_iff, and_comm]
    · refine iff_of_false ?_ ?_
      · rintro ⟨taken, r', ⟨n, returned⟩, _⟩
        let fuel := max (r.marks * (r.nodes.length + 1) + r.nodes.reverse.length) n
        have swept := ran fuel (le_max_left ..)
        have result := returned fuel (le_max_right ..)
        rw [List.head?_reverse] at swept
        simp only [Policy.victim, victim, if_neg empty, swept] at result
        cases result
      · rintro (nothing | ⟨m, member, evictable⟩)
        · exact tracked_ne nothing
        · exact none m member evictable

end ClockReplacer

namespace ClockReplacer_v2

/-- The frame has a place in `cache_` and is marked there. -/
def Tracked (r : ClockReplacer_v2) (m : ℕ) : Prop := m < r.capacity ∧ r.evictable m = true

variable {r r' : ClockReplacer_v2} {pt pt' : PageTable} {tracked : Finset ℕ} {capacity i m : ℕ}

/-- The hand passes a frame. -/
def pass (r : ClockReplacer_v2) (i : ℕ) : ClockReplacer_v2 := { r with visited := Function.update r.visited i false }

/-- A round takes its frame or passes it. -/
theorem victimLoop_succ (fuel : ℕ) (inside : i < r.capacity) (inOrder : r.evictable i = true → pt.InOrder i) :
    victimLoop (fuel + 1) pt r i =
      if r.evictable i = true ∧ r.visited i = false ∧ pt.Evictable i then .ok (i, r, pt.lockFrame (pt.ptes i).page i)
      else victimLoop fuel pt (r.pass i) ((i + 1) % r.capacity) := by
  rw [victimLoop, if_neg (Nat.not_le.mpr inside)]
  by_cases skipped : r.evictable i = false ∨ r.visited i = true
  · have other : ¬ (r.evictable i = true ∧ r.visited i = false ∧ pt.Evictable i) := by
      rintro ⟨marked, unvisited, _⟩
      simp [marked, unvisited] at skipped
    rw [if_pos skipped, if_neg other, pass]
  · obtain ⟨marked, unvisited⟩ : r.evictable i = true ∧ r.visited i = false := by simpa using skipped
    have same : r.pass i = r := by
      rw [pass, ← unvisited, Function.update_eq_self]
    rw [if_neg skipped, same]
    by_cases evictable : pt.Evictable i
    · rw [if_neg (not_not.mpr evictable.2.2), if_pos ⟨marked, unvisited, evictable⟩, evictable.lockVictim]
      rfl
    · have kept : ¬ (r.evictable i = true ∧ r.visited i = false ∧ pt.Evictable i) := fun all => evictable all.2.2
      rw [if_neg kept, (inOrder marked).lockVictim evictable]
      split_ifs <;> rfl

/-- The rounds before the hand takes frame `m` at the latest. -/
def ahead (r : ClockReplacer_v2) (m i : ℕ) : ℕ :=
  (if i ≤ m then m - i else m + r.capacity - i) + if r.visited m = true then r.capacity else 0

theorem ahead_pass (inside : i < r.capacity) (member : m < r.capacity) (goesOn : i = m → r.visited m = true) :
    (r.pass i).ahead m ((i + 1) % r.capacity) < r.ahead m i := by
  have next : (i + 1) % r.capacity = if i + 1 = r.capacity then 0 else i + 1 := by
    split_ifs with last
    · rw [last, Nat.mod_self]
    · exact Nat.mod_eq_of_lt (by omega)
  rw [ahead, ahead, next]
  by_cases same : i = m
  · subst same
    simp only [pass, goesOn rfl, Function.update_self, le_refl, if_true, Bool.false_eq_true, if_false]
    split_ifs <;> omega
  · simp only [pass, Function.update_of_ne (Ne.symm same)]
    split_ifs <;> omega

/-- Where a tracked frame is evictable the hand takes one. -/
theorem victimLoop_takes {n : ℕ} (member : r.Tracked m) (evictable : pt.Evictable m) (inside : i < r.capacity)
    (inOrder : ∀ k, r.Tracked k → pt.InOrder k) (enough : r.ahead m i < n) :
    ∃ j r', r.Tracked j ∧ pt.Evictable j ∧ r'.capacity = r.capacity ∧ r'.evictable = r.evictable ∧
      ∀ fuel ≥ n, victimLoop fuel pt r i = .ok (j, r', pt.lockFrame (pt.ptes j).page j) := by
  induction n generalizing r i with
  | zero => exact absurd enough (Nat.not_lt_zero _)
  | succ n ih =>
    have step (fuel : ℕ) := @victimLoop_succ r pt i fuel inside fun marked => inOrder i ⟨inside, marked⟩
    by_cases takes : r.evictable i = true ∧ r.visited i = false ∧ pt.Evictable i
    · refine ⟨i, r, ⟨inside, takes.1⟩, takes.2.2, rfl, rfl, fun fuel more => ?_⟩
      obtain ⟨fuel, rfl⟩ := Nat.exists_eq_succ_of_ne_zero (Nat.ne_zero_of_lt more)
      exact (step fuel).trans (if_pos takes)
    · have goesOn (same : i = m) : r.visited m = true := by
        subst same
        by_contra unvisited
        exact takes ⟨member.2, by simpa using unvisited, evictable⟩
      have closer := ahead_pass inside member.1 goesOn
      obtain ⟨j, r', tracked, taken, capacity, flags, ran⟩ := @ih (r.pass i) ((i + 1) % r.capacity) member
        (Nat.mod_lt _ (Nat.zero_lt_of_lt inside)) inOrder (by omega)
      refine ⟨j, r', tracked, taken, capacity, flags, fun fuel more => ?_⟩
      obtain ⟨fuel, rfl⟩ := Nat.exists_eq_succ_of_ne_zero (Nat.ne_zero_of_lt more)
      exact (step fuel).trans ((if_neg takes).trans (ran fuel (Nat.le_of_succ_le_succ more)))

/-- Where none is evictable the loop goes on for ever. -/
theorem victimLoop_endless (kept : ∀ m, r.Tracked m → ¬ pt.Evictable m) (inOrder : ∀ k, r.Tracked k → pt.InOrder k)
    (fuel i : ℕ) : ∀ result, victimLoop fuel pt r i ≠ .ok result := by
  intro result
  induction fuel generalizing r i with
  | zero => simp [victimLoop]
  | succ fuel ih =>
    by_cases inside : i < r.capacity
    · rw [victimLoop_succ fuel inside fun marked => inOrder i ⟨inside, marked⟩, if_neg]
      · exact @ih (r.pass i) kept inOrder ((i + 1) % r.capacity)
      · exact fun takes => kept i ⟨inside, takes.1⟩ takes.2.2
    · rw [victimLoop, if_pos (Nat.le_of_not_lt inside)]
      simp

/-- The flags and the length of `cache_` say which frames are tracked. -/
theorem tracked_of_run (run : Tracks capacity r tracked) : ∀ m, r.Tracked m ↔ m ∈ tracked := by
  induction run with
  | new constructed =>
    cases constructed
    simp [Tracked, new]
  | @insert r r' tracked m inserted _ ran ih =>
    intro k
    have ran : insert r m = .ok (inserted, r') := ran
    unfold insert at ran
    split_ifs at ran with past
    cases ran
    rw [Finset.mem_insert, ← ih k, Tracked, Tracked]
    by_cases same : k = m
    · subst same
      simpa using past
    · simp [same]
  | @promote r r' tracked m promoted _ ran ih =>
    have ran : promote r m = .ok (promoted, r') := ran
    unfold promote at ran
    split_ifs at ran with past
    cases ran
    exact ih
  | @victim r r' tracked fuel pt pt' taken _ ran ih =>
    intro k
    obtain ⟨⟨i, after, table⟩, swept, ran⟩ := bind_eq_ok.mp ran
    obtain ⟨capacity, flags⟩ : after.capacity = r.capacity ∧ after.evictable = r.evictable := victimLoop_flags swept
    cases ran
    rw [untrack, Finset.mem_erase, ← ih k, Tracked, Tracked]
    by_cases same : k = i
    · simp [same]
    · simp [same, capacity, flags]

/-- `Victim` fails cleanly if and only if some tracked frame is evictable. -/
theorem failsCleanly_iff (inOrder : ∀ m, r.Tracked m → pt.InOrder m) :
    FailsCleanly Tracked r pt ↔ ∃ m, r.Tracked m ∧ pt.Evictable m := by
  constructor
  · rintro ⟨taken, r', ⟨n, returned⟩, _⟩
    by_contra none
    obtain ⟨result, swept, _⟩ := bind_eq_ok.mp (returned n le_rfl)
    exact victimLoop_endless (fun m member evictable => none ⟨m, member, evictable⟩) inOrder _ _ result swept
  · rintro ⟨m, member, evictable⟩
    have inside : r.hand % r.capacity < r.capacity := Nat.mod_lt _ (Nat.zero_lt_of_lt member.1)
    obtain ⟨j, r', tracked, taken, capacity, flags, ran⟩ :=
      victimLoop_takes member evictable inside inOrder (Nat.lt_succ_self _)
    let after : ClockReplacer_v2 := { r' with
      hand := (j + 1) % r'.capacity
      evictable := Function.update r'.evictable j false }
    have ended : Returns (fun fuel => Policy.victim fuel r pt) (some j, after, pt.lockFound (some j)) := by
      refine ⟨r.ahead m (r.hand % r.capacity) + 1, fun fuel enough => ?_⟩
      simp only [Policy.victim, victim, ran fuel enough]
      rfl
    refine ⟨some j, after, ended, tracked, taken, fun k => ?_⟩
    by_cases same : k = j
    · simp [Tracked, after, same]
    · simp [Tracked, after, same, capacity, flags]

end ClockReplacer_v2

/-- In every run and every pool whose tracked frames are in order a `Victim` of `ClockReplacer` fails cleanly if and
only if nothing is tracked or a tracked frame is evictable, and one of `ClockReplacer_v2` if and only if a tracked
frame is evictable. -/
theorem clocks_failCleanly_iff (pt : PageTable) (tracked : Finset ℕ) (capacity : ℕ)
    (inOrder : ∀ m ∈ tracked, pt.InOrder m) :
    (∀ r : ClockReplacer, Tracks capacity r tracked →
      (FailsCleanly ClockReplacer.Tracked r pt ↔ tracked = ∅ ∨ ∃ m ∈ tracked, pt.Evictable m)) ∧
    ∀ r : ClockReplacer_v2, Tracks capacity r tracked →
      (FailsCleanly ClockReplacer_v2.Tracked r pt ↔ ∃ m ∈ tracked, pt.Evictable m) := by
  refine ⟨fun r run => ClockReplacer.failsCleanly_iff (.of_run run) inOrder, fun r run => ?_⟩
  have known := ClockReplacer_v2.tracked_of_run run
  have exact := @ClockReplacer_v2.failsCleanly_iff r pt fun m member => inOrder m ((known m).mp member)
  simpa only [known] using exact

theorem clocks_failCleanly_iff_onePinned :
    (∀ r : ClockReplacer, Tracks 1 r {0} → (FailsCleanly ClockReplacer.Tracked r .onePinned ↔
      ({0} : Finset ℕ) = ∅ ∨ ∃ m ∈ ({0} : Finset ℕ), PageTable.onePinned.Evictable m)) ∧
    ∀ r : ClockReplacer_v2, Tracks 1 r {0} → (FailsCleanly ClockReplacer_v2.Tracked r .onePinned ↔
      ∃ m ∈ ({0} : Finset ℕ), PageTable.onePinned.Evictable m) :=
  clocks_failCleanly_iff _ _ _ fun _ member => Finset.mem_singleton.mp member ▸ PageTable.onePinned_inOrder

/-- With its only frame pinned the one walks on to `head_`; with no frame the other goes round for ever. -/
theorem clocks_miss_full_circle :
    Tracks 1 ((ClockReplacer.new fun _ => 0).insert 0).2 {0} ∧ PageTable.onePinned.InOrder 0 ∧
      (∀ fuel ≥ 1, Policy.victim fuel ((ClockReplacer.new fun _ => 0).insert 0).2 .onePinned = .error .nullNode) ∧
      ¬ FailsCleanly ClockReplacer.Tracked ((ClockReplacer.new fun _ => 0).insert 0).2 .onePinned ∧
    Tracks 1 (ClockReplacer_v2.new 1) ∅ ∧
      (∀ fuel, Policy.victim fuel (ClockReplacer_v2.new 1) .onePinned = .error .outOfFuel) ∧
      ¬ FailsCleanly ClockReplacer_v2.Tracked (ClockReplacer_v2.new 1) .onePinned := by
  have empty : Tracks 1 (ClockReplacer.new fun _ => 0) ∅ := .new ⟨_, rfl⟩
  have run : Tracks 1 ((ClockReplacer.new fun _ => 0).insert 0).2 {0} := empty.insert rfl
  have start : Tracks 1 (ClockReplacer_v2.new 1) ∅ := .new rfl
  have first (fuel : ℕ) (enough : fuel ≥ 1) :
      Policy.victim fuel ((ClockReplacer.new fun _ => 0).insert 0).2 .onePinned = .error .nullNode := by
    obtain ⟨fuel, rfl⟩ := Nat.exists_eq_succ_of_ne_zero (Nat.ne_zero_of_lt enough)
    cases fuel <;> rfl
  have second (fuel : ℕ) : Policy.victim fuel (ClockReplacer_v2.new 1) .onePinned = .error .outOfFuel := by
    have round : ∀ r : ClockReplacer_v2, r.capacity = 1 → r.evictable 0 = false →
        ClockReplacer_v2.victimLoop fuel .onePinned r 0 = .error .outOfFuel := by
      induction fuel with
      | zero => exact fun _ _ _ => rfl
      | succ fuel ih =>
        intro r one unmarked
        have wrap : (0 + 1) % r.capacity = 0 := by rw [one]
        rw [ClockReplacer_v2.victimLoop, if_neg (by omega), if_pos (Or.inl unmarked), wrap]
        exact ih { r with visited := _ } one unmarked
    have swept : ClockReplacer_v2.victimLoop fuel .onePinned (ClockReplacer_v2.new 1)
        ((ClockReplacer_v2.new 1).hand % (ClockReplacer_v2.new 1).capacity) = .error .outOfFuel := round _ rfl rfl
    simp only [Policy.victim, ClockReplacer_v2.victim, swept]
    rfl
  refine ⟨run, PageTable.onePinned_inOrder, first, ?_, start, second, ?_⟩
  · rintro ⟨taken, r', ⟨n, returned⟩, _⟩
    cases (first (n + 1) (Nat.le_add_left ..)).symm.trans (returned (n + 1) (Nat.le_succ n))
  · rintro ⟨taken, r', ⟨n, returned⟩, _⟩
    cases (second n).symm.trans (returned n le_rfl)

end Gbp
