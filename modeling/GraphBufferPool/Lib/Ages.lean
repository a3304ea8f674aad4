import Mathlib

/-! # Which was touched first

Things that come, are touched and go, with the time of the last touch of each. A queue keeps them in the
order of these times, the latest first; from its end, the first member with some property is the
oldest one that has it.
-/

universe u

/-- The things that are present, and when each was touched last. -/
structure Ages (κ : Type u) where
  present : Finset κ
  touched : κ → ℕ
  now : ℕ

namespace Ages

variable {κ : Type u}

/-- Nothing has come yet. -/
def start : Ages κ := ⟨∅, fun _ => 0, 0⟩

/-- `k` was touched before all others that have the property. -/
structure Oldest (ages : Ages κ) (p : κ → Prop) (k : κ) : Prop where
  present : k ∈ ages.present
  holds : p k
  first : ∀ j ∈ ages.present, p j → j ≠ k → ages.touched k < ages.touched j

/-- A search for the oldest one: `none` where there is none. -/
def FirstOf (ages : Ages κ) (p : κ → Prop) : Option κ → Prop
  | some k => ages.Oldest p k
  | none => ∀ k ∈ ages.present, ¬ p k

/-- The `n` oldest things that have the property, or all of them, in the order of their touches. -/
structure Eldest (ages : Ages κ) (p : κ → Prop) (n : ℕ) (ks : List κ) : Prop where
  holds : ∀ k ∈ ks, k ∈ ages.present ∧ p k
  sorted : ks.Pairwise fun k j => ages.touched k < ages.touched j
  first : ∀ k ∈ ks, ∀ j ∈ ages.present, p j → j ∉ ks → ages.touched k < ages.touched j
  count : ks.length = n ∨ ks.length < n ∧ ∀ j ∈ ages.present, p j → j ∈ ks

/-- A list of the things that are present, the latest touched first. -/
structure Ordered (ages : Ages κ) (order : List κ) : Prop where
  mem : ∀ k, k ∈ order ↔ k ∈ ages.present
  sorted : order.Pairwise fun k j => ages.touched j < ages.touched k
  past : ∀ k ∈ ages.present, ages.touched k < ages.now

variable {ages : Ages κ} {order : List κ} {p : κ → Prop} {k : κ}

theorem ordered_start : Ordered (start : Ages κ) [] := ⟨by simp [start], .nil, by simp [start]⟩

theorem Ordered.nodup (ordered : Ordered ages order) : order.Nodup :=
  ordered.sorted.imp fun before same => by
    subst same
    exact lt_irrefl _ before

section search

variable [DecidablePred p]

/-- The search from the end finds the oldest. -/
theorem Ordered.oldest (ordered : Ordered ages order) (found : order.reverse.find? p = some k) :
    ages.Oldest p k := by
  obtain ⟨holds, before, after, split, skipped⟩ := List.find?_eq_some_iff_append.mp found
  have sorted := List.pairwise_reverse.mpr ordered.sorted
  rw [split, List.pairwise_append] at sorted
  have member : k ∈ order := List.mem_reverse.mp (split ▸ by simp)
  refine ⟨(ordered.mem k).mp member, by simpa using holds, fun j present here apart => ?_⟩
  have place : j ∈ before ++ k :: after := split ▸ List.mem_reverse.mpr ((ordered.mem j).mpr present)
  rcases List.mem_append.mp place with early | late
  · exact absurd here (by simpa using skipped j early)
  · exact (List.pairwise_cons.mp sorted.2.1).1 j ((List.mem_cons.mp late).resolve_left apart)

theorem Ordered.none_holds (ordered : Ordered ages order) (missed : order.reverse.find? p = none) :
    ∀ k ∈ ages.present, ¬ p k := by
  intro k present
  have skipped := List.find?_eq_none.mp missed k (List.mem_reverse.mpr ((ordered.mem k).mpr present))
  simpa using skipped

theorem Ordered.firstOf (ordered : Ordered ages order) : ages.FirstOf p (order.reverse.find? p) := by
  cases found : order.reverse.find? p with
  | some k => exact ordered.oldest found
  | none => exact ordered.none_holds found

/-- The first ones from the end are the eldest. -/
theorem Ordered.eldest (ordered : Ordered ages order) (n : ℕ) :
    ages.Eldest p n ((order.reverse.filter p).take n) := by
  have sorted : (order.reverse.filter p).Pairwise fun k j => ages.touched k < ages.touched j :=
    (List.pairwise_reverse.mpr ordered.sorted).filter _
  have members (k : κ) : k ∈ order.reverse.filter p ↔ k ∈ ages.present ∧ p k := by
    simp [ordered.mem]
  generalize order.reverse.filter p = line at sorted members
  refine ⟨fun k member => (members k).mp (List.mem_of_mem_take member), sorted.sublist (List.take_sublist ..),
    fun k member j present here other => ?_, ?_⟩
  · have later : j ∈ line.drop n := by
      have there := (members j).mpr ⟨present, here⟩
      rw [← List.take_append_drop n line] at there
      exact (List.mem_append.mp there).resolve_left other
    rw [← List.take_append_drop n line, List.pairwise_append] at sorted
    exact sorted.2.2 k member j later
  · rcases Nat.lt_or_ge line.length n with short | long
    · right
      rw [List.take_of_length_le short.le]
      exact ⟨short, fun j present here => (members j).mpr ⟨present, here⟩⟩
    · exact Or.inl (by rw [List.length_take, min_eq_left long])

end search

section moves

variable [DecidableEq κ]

/-- `k` is touched, and present from now on. -/
def touch (ages : Ages κ) (k : κ) : Ages κ :=
  ⟨insert k ages.present, Function.update ages.touched k ages.now, ages.now + 1⟩

theorem erase_eq_filter (distinct : order.Nodup) (k : κ) : order.erase k = order.filter fun j => j ∉ [k] := by
  rw [distinct.erase_eq_filter]
  refine List.filter_congr fun j _ => ?_
  rw [Bool.eq_iff_iff]
  simp

/-- Some things go. -/
def forget (ages : Ages κ) (gone : List κ) : Ages κ := { ages with present := ages.present \ gone.toFinset }

theorem forget_nil (ages : Ages κ) : ages.forget [] = ages := by simp [Ages.forget]

theorem forget_of_notMem (absent : k ∉ ages.present) : ages.forget [k] = ages := by
  simp [Ages.forget, Finset.sdiff_singleton_eq_erase, Finset.erase_eq_of_notMem absent]

theorem touch_forget (ages : Ages κ) (k : κ) : (ages.forget [k]).touch k = ages.touch k := by
  have back : insert k (ages.present \ {k}) = insert k ages.present := by
    ext j
    by_cases same : j = k <;> simp [same]
  simp [Ages.forget, Ages.touch, back]

/-- The thing that is touched comes to the front. -/
theorem Ordered.touch (ordered : Ordered ages order) (k : κ) : Ordered (ages.touch k) (k :: order.erase k) := by
  have other {j : κ} (member : j ∈ order.erase k) : j ≠ k ∧ j ∈ ages.present := by
    obtain ⟨apart, member⟩ := ordered.nodup.mem_erase_iff.mp member
    exact ⟨apart, (ordered.mem j).mp member⟩
  constructor
  · intro j
    rw [Ages.touch, Finset.mem_insert, List.mem_cons, ordered.nodup.mem_erase_iff, ordered.mem]
    by_cases same : j = k <;> simp [same]
  · refine List.pairwise_cons.mpr ⟨fun j member => ?_, ?_⟩
    · obtain ⟨apart, present⟩ := other member
      simpa [Ages.touch, apart] using ordered.past j present
    · refine (ordered.sorted.sublist List.erase_sublist).imp_of_mem fun {i j} first second before => ?_
      simpa [Ages.touch, (other first).1, (other second).1] using before
  · intro j present
    by_cases same : j = k
    · simp [Ages.touch, same]
    · have earlier := ordered.past j ((Finset.mem_insert.mp present).resolve_left same)
      simpa [Ages.touch, same] using earlier.trans (Nat.lt_succ_self _)

/-- What goes leaves a gap. -/
theorem Ordered.forget (ordered : Ordered ages order) (gone : List κ) :
    Ordered (ages.forget gone) (order.filter fun k => k ∉ gone) where
  mem k := by simp [Ages.forget, ordered.mem]
  sorted := ordered.sorted.filter _
  past k present := ordered.past k (Finset.mem_sdiff.mp present).1

theorem Ordered.forget_one (ordered : Ordered ages order) (k : κ) :
    Ordered (ages.forget [k]) (order.erase k) := by
  have gap := ordered.forget [k]
  rwa [← erase_eq_filter ordered.nodup] at gap

end moves

end Ages
