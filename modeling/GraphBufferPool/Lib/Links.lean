import Mathlib

/-! # Doubly linked lists

Cells with a `prev` and a `next` field. `Seg l a xs b` says that `xs` is what lies between the cells `a`
and `b`, in both directions. Unlinking a cell and linking one in behind the first are the stores
that every such list makes, and keep a segment one.
-/

universe u

/-- The two fields of every cell. -/
structure Links (P : Type u) where
  prev : P → P
  next : P → P

namespace Links

variable {P : Type u} [DecidableEq P]

/-- `p->prev = q`. -/
def setPrev (l : Links P) (p q : P) : Links P := { l with prev := Function.update l.prev p q }

/-- `p->next = q`. -/
def setNext (l : Links P) (p q : P) : Links P := { l with next := Function.update l.next p q }

/-- `x->prev->next = x->next; x->next->prev = x->prev`. -/
def unlink (l : Links P) (x : P) : Links P :=
  let l := l.setNext (l.prev x) (l.next x)
  l.setPrev (l.next x) (l.prev x)

/-- `x->next = a->next; x->prev = a; a->next->prev = x; a->next = x`. -/
def linkAfter (l : Links P) (a x : P) : Links P :=
  let l := l.setNext x (l.next a)
  let l := l.setPrev x a
  let l := l.setPrev (l.next a) x
  l.setNext a x

/-- The cells between `a` and `b`. -/
def Seg (l : Links P) (a : P) : List P → P → Prop
  | [], b => l.next a = b ∧ l.prev b = a
  | x :: xs, b => (l.next a = x ∧ l.prev x = a) ∧ l.Seg x xs b

variable {l l' : Links P} {a b x : P} {xs ys : List P}

omit [DecidableEq P] in
theorem seg_cons : l.Seg a (x :: xs) b ↔ (l.next a = x ∧ l.prev x = a) ∧ l.Seg x xs b := Iff.rfl

omit [DecidableEq P] in
/-- Two segments that meet. -/
theorem seg_append : l.Seg a (xs ++ x :: ys) b ↔ l.Seg a xs x ∧ l.Seg x ys b := by
  induction xs generalizing a with
  | nil => exact Iff.rfl
  | cons y xs ih =>
    rw [List.cons_append, seg_cons, seg_cons, ih]
    exact (and_assoc).symm

omit [DecidableEq P] in
/-- A segment with its last cell in sight. -/
theorem seg_concat : l.Seg a (xs ++ [x]) b ↔ l.Seg a xs x ∧ l.next x = b ∧ l.prev b = x := seg_append

omit [DecidableEq P] in
/-- A segment reads `next` of all its cells but the last, and `prev` of all but the first. -/
theorem Seg.congr (seg : l.Seg a xs b) (next : ∀ p ∈ a :: xs, l'.next p = l.next p)
    (prev : ∀ p ∈ xs ++ [b], l'.prev p = l.prev p) : l'.Seg a xs b := by
  induction xs generalizing a with
  | nil => exact ⟨(next a (by simp)).trans seg.1, (prev b (by simp)).trans seg.2⟩
  | cons x xs ih =>
    obtain ⟨⟨ahead, back⟩, rest⟩ := seg
    refine ⟨⟨(next a (by simp)).trans ahead, (prev x (by simp)).trans back⟩, ih rest ?_ ?_⟩
    · exact fun p member => next p (List.mem_cons_of_mem _ member)
    · exact fun p member => prev p (List.mem_cons_of_mem _ member)

omit [DecidableEq P] in
/-- What lies before the end of a segment. -/
theorem Seg.prev_mem (seg : l.Seg a xs b) : l.prev b ∈ a :: xs := by
  induction xs generalizing a with
  | nil => exact seg.2 ▸ List.mem_singleton_self a
  | cons x xs ih => exact List.mem_cons_of_mem _ (ih seg.2)

omit [DecidableEq P] in
/-- What lies behind the start of a segment. -/
theorem Seg.next_mem (seg : l.Seg a xs b) : l.next a ∈ xs ++ [b] := by
  cases xs with
  | nil => exact seg.1 ▸ List.mem_singleton_self b
  | cons x xs => exact seg.1.1 ▸ List.mem_cons_self ..

@[simp] theorem setPrev_next (p q : P) : (l.setPrev p q).next = l.next := rfl

@[simp] theorem setNext_prev (p q : P) : (l.setNext p q).prev = l.prev := rfl

@[simp] theorem setPrev_prev (p q r : P) : (l.setPrev p q).prev r = if r = p then q else l.prev r := by
  simp [setPrev, Function.update_apply]

@[simp] theorem setNext_next (p q r : P) : (l.setNext p q).next r = if r = p then q else l.next r := by
  simp [setNext, Function.update_apply]

omit [DecidableEq P] in
/-- Every cell of a segment has a neighbour behind it in the segment or at its end. -/
theorem Seg.next_mem_of_mem (seg : l.Seg a xs b) (member : x ∈ xs) : l.next x ∈ xs ++ [b] := by
  obtain ⟨before, after, rfl⟩ := List.append_of_mem member
  have behind := (seg_append.mp seg).2.next_mem
  simp only [List.append_assoc, List.cons_append, List.mem_append, List.mem_cons]
  exact Or.inr (Or.inr (by simpa using behind))

omit [DecidableEq P] in
theorem Seg.prev_mem_of_mem (seg : l.Seg a xs b) (member : x ∈ xs) : l.prev x ∈ a :: xs := by
  obtain ⟨before, after, rfl⟩ := List.append_of_mem member
  have ahead := (seg_append.mp seg).1.prev_mem
  rw [← List.cons_append]
  exact List.mem_append_left _ ahead

omit [DecidableEq P] in
/-- No cell lies before itself. -/
theorem Seg.prev_ne (seg : l.Seg a xs b) (distinct : (a :: xs).Nodup) (member : x ∈ xs) : l.prev x ≠ x := by
  obtain ⟨before, after, rfl⟩ := List.append_of_mem member
  intro same
  have ahead := (seg_append.mp seg).1.prev_mem
  rw [same] at ahead
  rw [← List.cons_append, List.nodup_append] at distinct
  exact distinct.2.2 x ahead x (List.mem_cons_self ..) rfl

theorem unlink_next (l : Links P) (x p : P) : (l.unlink x).next p = if p = l.prev x then l.next x else l.next p := by
  simp [Links.unlink]

theorem unlink_prev (other : l.prev x ≠ x) (p : P) :
    (l.unlink x).prev p = if p = l.next x then l.prev x else l.prev p := by
  simp [Links.unlink, Ne.symm other]

theorem linkAfter_next (l : Links P) (a x p : P) :
    (l.linkAfter a x).next p = if p = a then x else if p = x then l.next a else l.next p := by
  simp [Links.linkAfter]

theorem linkAfter_prev (outside : x ≠ a) (p : P) :
    (l.linkAfter a x).prev p = if p = l.next a then x else if p = x then a else l.prev p := by
  simp [Links.linkAfter, Ne.symm outside]

/-- A segment whose end is joined to another cell `c` instead, by the two stores that it takes. -/
theorem Seg.redirect {c : P} (seg : l.Seg a xs x) (distinct : (a :: xs).Nodup) (other : c ∉ xs)
    (next : ∀ p, l'.next p = if p = l.prev x then c else l.next p)
    (prev : ∀ p, l'.prev p = if p = c then l.prev x else l.prev p) : l'.Seg a xs c := by
  induction xs generalizing a with
  | nil => exact ⟨(next a).trans (if_pos seg.2.symm), (prev c).trans ((if_pos rfl).trans seg.2)⟩
  | cons y xs ih =>
    obtain ⟨⟨ahead, back⟩, rest⟩ := seg
    obtain ⟨fresh, distinct⟩ := List.nodup_cons.mp distinct
    obtain ⟨apart, other⟩ := not_or.mp (List.mem_cons.not.mp other)
    have before : a ≠ l.prev x := fun same => fresh (same ▸ rest.prev_mem)
    refine ⟨⟨?_, ?_⟩, ih rest distinct other⟩
    · rw [next, if_neg before, ahead]
    · rw [prev, if_neg (Ne.symm apart), back]

/-- A cell leaves a list. -/
theorem Seg.unlink (seg : l.Seg a (xs ++ x :: ys) b) (distinct : (a :: (xs ++ x :: ys ++ [b])).Nodup) :
    (l.unlink x).Seg a (xs ++ ys) b := by
  obtain ⟨left, right⟩ := seg_append.mp seg
  have inner : (a :: xs).Nodup ∧ (x :: (ys ++ [b])).Nodup ∧ ∀ p ∈ a :: xs, p ∉ x :: (ys ++ [b]) := by
    rw [List.append_assoc, ← List.cons_append, List.nodup_append] at distinct
    exact ⟨distinct.1, distinct.2.1, fun p early late => distinct.2.2 p early p late rfl⟩
  obtain ⟨first, second, apart⟩ := inner
  have rest := (List.nodup_cons.mp second).2
  have other : l.prev x ≠ x := by
    refine seg.prev_ne (distinct.sublist ?_) (by simp)
    exact (List.sublist_append_left ..).cons_cons a
  have next := l.unlink_next x
  have prev := unlink_prev other
  have target : l.next x ∉ xs := fun member =>
    apart _ (List.mem_cons_of_mem _ member) (List.mem_cons_of_mem _ right.next_mem)
  have joined := left.redirect first target next prev
  cases ys with
  | nil => rwa [right.1, ← List.append_nil xs] at joined
  | cons y ys =>
    obtain ⟨⟨ahead, _⟩, tail⟩ := right
    rw [ahead] at joined
    refine seg_append.mpr ⟨joined, tail.congr (fun p member => ?_) fun p member => ?_⟩
    · rw [next, if_neg]
      rintro rfl
      refine apart _ left.prev_mem (List.mem_cons_of_mem _ ?_)
      exact List.mem_append_left _ member
    · rw [prev, if_neg]
      rintro rfl
      rw [ahead] at member
      exact (List.nodup_cons.mp rest).1 member

/-- What is left of a list when the cell `x` is taken out by `b->prev = x->prev; x->prev->next = b`, with `b`
for its end: the cells behind `x` go as well. -/
theorem Seg.cut (seg : l.Seg a (xs ++ x :: ys) b) (distinct : (a :: (xs ++ x :: ys ++ [b])).Nodup) :
    ((l.setPrev b (l.prev x)).setNext (l.prev x) b).Seg a xs b := by
  obtain ⟨left, _⟩ := seg_append.mp seg
  rw [List.append_assoc, ← List.cons_append, List.nodup_append] at distinct
  refine left.redirect distinct.1 (fun member => ?_) (fun p => by simp) (fun p => by simp)
  exact distinct.2.2 b (List.mem_cons_of_mem _ member) b (by simp) rfl

/-- A cell enters a list behind its first cell. -/
theorem Seg.linkAfter (seg : l.Seg a xs b) (distinct : (a :: (xs ++ [b])).Nodup) (fresh : x ∉ a :: (xs ++ [b])) :
    (l.linkAfter a x).Seg a (x :: xs) b := by
  obtain ⟨outside, other⟩ := not_or.mp (List.mem_cons.not.mp fresh)
  obtain ⟨first, rest⟩ := List.nodup_cons.mp distinct
  have apart : l.next a ≠ x := fun same => other (same ▸ seg.next_mem)
  have next := l.linkAfter_next a x
  have prev := @linkAfter_prev _ _ l a x outside
  refine ⟨⟨by simp [next], by simp [prev, Ne.symm apart]⟩, ?_⟩
  cases xs with
  | nil => exact ⟨by simp [next, outside, seg.1], by simp [prev, seg.1]⟩
  | cons y ys =>
    obtain ⟨⟨ahead, _⟩, tail⟩ := seg
    refine ⟨⟨by simp [next, outside, ahead], by simp [prev, ahead]⟩, tail.congr (fun p member => ?_) fun p member => ?_⟩
    · have here : p ∈ y :: ys ++ [b] := List.mem_append_left _ member
      have apart : p ≠ a := fun same => first (same ▸ here)
      have other : p ≠ x := fun same => other (same ▸ here)
      rw [next, if_neg apart, if_neg other]
    · have here : p ∈ y :: ys ++ [b] := List.mem_cons_of_mem _ member
      have other : p ≠ x := fun same => other (same ▸ here)
      have later : p ≠ l.next a := by
        rintro rfl
        rw [ahead] at member
        exact (List.nodup_cons.mp rest).1 member
      rw [prev, if_neg later, if_neg other]

end Links
