import GraphBufferPool.Lib.Links

/-! # Lists threaded through cells that know whether they are linked

The cells between two sentinels, when every other cell keeps a null in both fields. A cell is then
linked exactly when neither of its fields is null, so that taking it out and putting it in front need no
other record of what is linked.
-/

universe u

namespace Links

variable {P : Type u}

/-- The cells `xs` between `head` and `tail`, all others without neighbours. -/
structure Threaded (l : Links P) (head tail null : P) (xs : List P) : Prop where
  seg : l.Seg head xs tail
  nodup : (head :: (xs ++ [tail])).Nodup
  present : null ∉ head :: (xs ++ [tail])
  outside : ∀ p ∉ head :: (xs ++ [tail]), p ≠ null → l.next p = null ∧ l.prev p = null

variable {l l' : Links P} {a b head tail null x y : P} {xs ys : List P}

/-- The cell behind a cell has it in front. -/
theorem Seg.prev_next (seg : l.Seg a xs b) (member : x ∈ a :: xs) : l.prev (l.next x) = x := by
  induction xs generalizing a with
  | nil =>
    obtain rfl := List.mem_singleton.mp member
    rw [seg.1, seg.2]
  | cons y xs ih =>
    obtain ⟨⟨ahead, back⟩, rest⟩ := seg
    rcases List.mem_cons.mp member with rfl | later
    · rw [ahead, back]
    · exact ih rest later

/-- The cell in front of a cell has it behind. -/
theorem Seg.next_prev (seg : l.Seg a xs b) (member : x ∈ xs ++ [b]) : l.next (l.prev x) = x := by
  induction xs generalizing a with
  | nil =>
    obtain rfl := List.mem_singleton.mp member
    rw [seg.2, seg.1]
  | cons y xs ih =>
    obtain ⟨⟨ahead, back⟩, rest⟩ := seg
    rcases List.mem_cons.mp member with rfl | later
    · rw [back, ahead]
    · exact ih rest later

/-- The fields determine what lies between two cells. -/
theorem Seg.unique (seg : l.Seg a xs b) (other : l.Seg a ys b) (last : b ∉ xs) (last' : b ∉ ys) : xs = ys := by
  induction xs generalizing a ys with
  | nil =>
    cases ys with
    | nil => rfl
    | cons y ys => exact absurd (seg.1.symm.trans other.1.1) fun same => last' (same ▸ List.mem_cons_self ..)
  | cons x xs ih =>
    cases ys with
    | nil => exact absurd (other.1.symm.trans seg.1.1) fun same => last (same ▸ List.mem_cons_self ..)
    | cons y ys =>
      obtain rfl : x = y := seg.1.1.symm.trans other.1.1
      rw [ih seg.2 other.2 (fun member => last (List.mem_cons_of_mem _ member)) fun member =>
        last' (List.mem_cons_of_mem _ member)]

namespace Threaded

theorem nodup_cells (threaded : l.Threaded head tail null xs) : xs.Nodup :=
  threaded.nodup.sublist ((List.sublist_append_left xs [tail]).trans (List.sublist_cons_self ..))

theorem ne_head (threaded : l.Threaded head tail null xs) (member : x ∈ xs) : x ≠ head := by
  rintro rfl
  exact (List.nodup_cons.mp threaded.nodup).1 (List.mem_append_left _ member)

theorem ne_tail (threaded : l.Threaded head tail null xs) (member : x ∈ xs) : x ≠ tail := by
  have distinct := (List.nodup_cons.mp threaded.nodup).2
  rw [List.nodup_append] at distinct
  exact distinct.2.2 x member tail (List.mem_singleton_self tail)

theorem next_ne_null (threaded : l.Threaded head tail null xs) (member : x ∈ xs) : l.next x ≠ null := by
  intro empty
  have behind := threaded.seg.next_mem_of_mem member
  rw [empty] at behind
  exact threaded.present (List.mem_cons_of_mem _ behind)

theorem prev_ne_null (threaded : l.Threaded head tail null xs) (member : x ∈ xs) : l.prev x ≠ null := by
  intro empty
  have ahead := threaded.seg.prev_mem_of_mem member
  rw [empty] at ahead
  exact threaded.present (by rw [← List.cons_append]; exact List.mem_append_left _ ahead)

theorem not_mem_cells (other : x ≠ head) (last : x ≠ tail) (fresh : x ∉ xs) : x ∉ head :: (xs ++ [tail]) := by
  simp [other, last, fresh]

/-- A cell is linked exactly when neither of its fields is null. -/
theorem mem_iff (threaded : l.Threaded head tail null xs) (other : x ≠ head) (last : x ≠ tail) (some : x ≠ null) :
    (l.next x ≠ null ∧ l.prev x ≠ null) ↔ x ∈ xs := by
  constructor
  · rintro ⟨next, _⟩
    by_contra fresh
    exact next (threaded.outside x (not_mem_cells other last fresh) some).1
  · exact fun member => ⟨threaded.next_ne_null member, threaded.prev_ne_null member⟩

end Threaded

variable [DecidableEq P]

/-- A cell is taken out and its fields are cleared, unless they are clear already. -/
def remove (l : Links P) (null x : P) : Links P :=
  if l.next x = null ∨ l.prev x = null then l
  else ((l.unlink x).setPrev x null).setNext x null

namespace Threaded

theorem remove_absent (threaded : l.Threaded head tail null xs) (fresh : x ∉ head :: (xs ++ [tail]))
    (some : x ≠ null) : l.remove null x = l := if_pos (Or.inl (threaded.outside x fresh some).1)

theorem remove_eq (threaded : l.Threaded head tail null xs) (member : x ∈ xs) :
    l.remove null x = ((l.unlink x).setPrev x null).setNext x null :=
  if_neg (not_or.mpr ⟨threaded.next_ne_null member, threaded.prev_ne_null member⟩)

/-- Taking out a cell, linked or not. -/
theorem remove (threaded : l.Threaded head tail null xs) (other : x ≠ head) (last : x ≠ tail) (some : x ≠ null) :
    (l.remove null x).Threaded head tail null (xs.erase x) := by
  by_cases member : x ∈ xs
  · have distinct := threaded.nodup_cells
    have apart : l.prev x ≠ x :=
      threaded.seg.prev_ne (threaded.nodup.sublist ((List.sublist_append_left ..).cons_cons head)) member
    have ahead := threaded.seg.prev_mem_of_mem member
    have behind := threaded.seg.next_mem_of_mem member
    have cells : (head :: (xs.erase x ++ [tail])).Sublist (head :: (xs ++ [tail])) :=
      (List.erase_sublist.append_right [tail]).cons_cons head
    have gone : x ∉ head :: (xs.erase x ++ [tail]) := not_mem_cells other last distinct.not_mem_erase
    rw [threaded.remove_eq member]
    refine ⟨?_, threaded.nodup.sublist cells, fun here => threaded.present (cells.subset here), fun p fresh present => ?_⟩
    · obtain ⟨before, after, rfl⟩ := List.append_of_mem member
      have left : x ∉ before := fun early => by
        rw [List.nodup_append] at distinct
        exact distinct.2.2 x early x (List.mem_cons_self ..) rfl
      rw [List.erase_append_right _ left, List.erase_cons_head] at gone ⊢
      refine (threaded.seg.unlink (by simpa using threaded.nodup)).congr (fun p here => ?_) fun p here => ?_
      · have different : p ≠ x := by
          rintro rfl
          exact gone (by rw [← List.cons_append]; exact List.mem_append_left _ here)
        simp [different]
      · have different : p ≠ x := by
          rintro rfl
          exact gone (List.mem_cons_of_mem _ here)
        simp [different]
    · by_cases same : p = x
      · simp [same]
      · have absent : p ∉ head :: (xs ++ [tail]) := by
          intro here
          refine fresh ?_
          simp only [List.mem_cons, List.mem_append] at here ⊢
          rcases here with first | (inner | final)
          · exact Or.inl first
          · exact Or.inr (Or.inl ((List.mem_erase_of_ne same).mpr inner))
          · exact Or.inr (Or.inr final)
        have first : p ≠ l.prev x := by
          rintro rfl
          exact absent (by rw [← List.cons_append]; exact List.mem_append_left _ ahead)
        have second : p ≠ l.next x := by
          rintro rfl
          exact absent (List.mem_cons_of_mem _ behind)
        simp [unlink_next, unlink_prev apart, same, first, second, threaded.outside p absent present]
  · rw [threaded.remove_absent (not_mem_cells other last member) some, List.erase_of_not_mem member]
    exact threaded

/-- Linking a cell in front. -/
theorem linkFront (threaded : l.Threaded head tail null xs) (fresh : x ∉ head :: (xs ++ [tail])) (some : x ≠ null) :
    (l.linkAfter head x).Threaded head tail null (x :: xs) := by
  obtain ⟨other, later⟩ := not_or.mp (List.mem_cons.not.mp fresh)
  obtain ⟨first, rest⟩ := List.nodup_cons.mp threaded.nodup
  refine ⟨threaded.seg.linkAfter threaded.nodup fresh, ?_, ?_, fun p absent present => ?_⟩
  · rw [List.cons_append]
    refine List.nodup_cons.mpr ⟨?_, List.nodup_cons.mpr ⟨later, rest⟩⟩
    exact List.mem_cons.not.mpr (not_or.mpr ⟨Ne.symm other, first⟩)
  · rw [List.cons_append, List.mem_cons, List.mem_cons]
    rintro (rfl | rfl | inner)
    · exact threaded.present (List.mem_cons_self ..)
    · exact some rfl
    · exact threaded.present (List.mem_cons_of_mem _ inner)
  · rw [List.cons_append, List.mem_cons, List.mem_cons] at absent
    obtain ⟨notHead, absent⟩ := not_or.mp absent
    obtain ⟨different, outer⟩ := not_or.mp absent
    have behind : p ≠ l.next head := by
      rintro rfl
      exact outer threaded.seg.next_mem
    rw [linkAfter_next, linkAfter_prev other, if_neg notHead, if_neg different, if_neg behind, if_neg different]
    exact threaded.outside p (List.mem_cons.not.mpr (not_or.mpr ⟨notHead, outer⟩)) present

/-- The outer fields of the sentinels stay as they are. -/
theorem remove_ends (threaded : l.Threaded head tail null xs) (other : x ≠ head) (last : x ≠ tail) (some : x ≠ null) :
    (l.remove null x).prev head = l.prev head ∧ (l.remove null x).next tail = l.next tail := by
  by_cases member : x ∈ xs
  · have apart : l.prev x ≠ x :=
      threaded.seg.prev_ne (threaded.nodup.sublist ((List.sublist_append_left ..).cons_cons head)) member
    have behind : head ≠ l.next x := by
      intro same
      exact (List.nodup_cons.mp threaded.nodup).1 (same ▸ threaded.seg.next_mem_of_mem member)
    have ahead : tail ≠ l.prev x := by
      intro same
      have here := threaded.seg.prev_mem_of_mem member
      rw [← same] at here
      have distinct := threaded.nodup
      rw [← List.cons_append, List.nodup_append] at distinct
      exact distinct.2.2 tail here tail (List.mem_singleton_self tail) rfl
    rw [threaded.remove_eq member]
    simp [unlink_next, unlink_prev apart, Ne.symm other, Ne.symm last, behind, ahead]
  · rw [threaded.remove_absent (not_mem_cells other last member) some]
    exact ⟨rfl, rfl⟩

theorem linkFront_ends (threaded : l.Threaded head tail null xs) (fresh : x ∉ head :: (xs ++ [tail])) :
    (l.linkAfter head x).prev head = l.prev head ∧ (l.linkAfter head x).next tail = l.next tail := by
  obtain ⟨other, later⟩ := not_or.mp (List.mem_cons.not.mp fresh)
  obtain ⟨first, rest⟩ := List.nodup_cons.mp threaded.nodup
  have behind : head ≠ l.next head := by
    intro same
    exact first (same.symm ▸ threaded.seg.next_mem)
  have last : tail ≠ x := by
    rintro rfl
    exact later (by simp)
  have apart : tail ≠ head := by
    rintro rfl
    exact first (by simp)
  rw [linkAfter_next, linkAfter_prev other, if_neg behind, if_neg (Ne.symm other), if_neg apart, if_neg last]
  exact ⟨rfl, rfl⟩

end Threaded

end Links
