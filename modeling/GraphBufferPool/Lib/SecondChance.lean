import Mathlib

/-! # Evictions with a second chance

A hand goes round a ring of things, some of them marked once. It takes the first one that is free and not marked; a
marked one loses its mark when the hand passes it, one that is not free is passed over. So the order in which the free
ones are taken is settled in advance: first those without a mark, then the others, as the hand meets them.
-/

universe u

namespace SecondChance

open Function Relation

variable {κ : Type u} {free : κ → Bool} {k : κ}

/-- The order in which the hand takes the things it meets in the order of the list. -/
def order (mark : κ → ℕ) (ring : List κ) : List κ := ring.filter (mark · = 0) ++ ring.filter (mark · ≠ 0)

/-- What is in front of the hand, unmarked, comes first in the order. -/
theorem order_cons {mark : κ → ℕ} {rest : List κ} (unmarked : mark k = 0) :
    order mark (k :: rest) = k :: order mark rest := by
  simp [order, unmarked]

theorem order_cons_of_marked {mark : κ → ℕ} {rest : List κ} (marked : mark k ≠ 0) :
    order mark (k :: rest) = rest.filter (mark · = 0) ++ k :: rest.filter (mark · ≠ 0) := by
  simp [order, marked]

theorem order_concat {mark : κ → ℕ} {rest : List κ} (unmarked : mark k = 0) :
    order mark (rest ++ [k]) = rest.filter (mark · = 0) ++ k :: rest.filter (mark · ≠ 0) := by
  simp [order, unmarked]

/-- The order of some of the things. -/
theorem order_filter (mark : κ → ℕ) (ring : List κ) (keep : κ → Bool) :
    (order mark ring).filter keep = order mark (ring.filter keep) := by
  rw [order, order, List.filter_append, List.filter_comm, List.filter_comm (fun k => decide (mark k ≠ 0))]

/-- Where the first thing in the order is marked, all are. -/
theorem marked_of_first {mark : κ → ℕ} {ring rest : List κ} (front : order mark ring = k :: rest)
    (marked : mark k ≠ 0) :
    ∀ j ∈ rest, mark j ≠ 0 := by
  intro j member unmarked
  have listed : j ∈ ring.filter (mark · = 0) := by
    have there : j ∈ order mark ring := front ▸ List.mem_cons_of_mem _ member
    refine (List.mem_append.mp there).resolve_right fun late => ?_
    exact of_decide_eq_true (List.mem_filter.mp late).2 unmarked
  obtain ⟨first, others, split⟩ := List.exists_cons_of_ne_nil (List.ne_nil_of_mem listed)
  rw [order, split, List.cons_append, List.cons.injEq] at front
  have zero : first ∈ ring.filter (mark · = 0) := split ▸ List.mem_cons_self
  exact marked (front.1 ▸ of_decide_eq_true (List.mem_filter.mp zero).2)

/-- The order depends on the marks of the things in the ring. -/
theorem order_congr {mark mark' : κ → ℕ} {ring : List κ} (same : ∀ k ∈ ring, mark' k = mark k) :
    order mark' ring = order mark ring := by
  have kept (p : ℕ → Bool) : ring.filter (fun k => p (mark' k)) = ring.filter (p <| mark ·) :=
    List.filter_congr fun k member => congrArg p (same k member)
  rw [order, kept (· = 0), kept (· ≠ 0), order]

/-- What is not free has no place in the order of the free things. -/
theorem order_filter_of_held {mark : κ → ℕ} {before after : List κ} (held : free k = false) :
    (order mark (before ++ k :: after)).filter free = (order mark (before ++ after)).filter free := by
  rw [order_filter, order_filter, List.filter_append, List.filter_append, List.filter_cons_of_neg (by simp [held])]

variable [DecidableEq κ] {s s' : List κ × (κ → ℕ)}

/-- The hand passes what is in front of it. -/
inductive Turn (free : κ → Bool) : List κ × (κ → ℕ) → List κ × (κ → ℕ) → Prop
  | lower {k : κ} {rest : List κ} {mark : κ → ℕ} (marked : 0 < mark k) :
      Turn free (k :: rest, mark) (rest ++ [k], update mark k (mark k - 1))
  | pass {k : κ} {rest : List κ} {mark : κ → ℕ} (held : free k = false) :
      Turn free (k :: rest, mark) (rest ++ [k], mark)

/-- Each thing is in the ring once, with one mark at most. -/
structure Fair (s : List κ × (κ → ℕ)) : Prop where
  distinct : s.1.Nodup
  once : ∀ k ∈ s.1, s.2 k ≤ 1

theorem Turn.fair (turn : Turn free s s') (fair : Fair s) : Fair s' := by
  obtain ⟨distinct, once⟩ := fair
  cases turn with
  | @lower k rest mark marked =>
    refine ⟨(List.perm_append_singleton k rest).nodup_iff.mpr distinct, fun j member => ?_⟩
    have there : j ∈ k :: rest := (List.perm_append_singleton k rest).mem_iff.mp member
    rcases eq_or_ne j k with rfl | apart
    · change update mark j (mark j - 1) j ≤ 1
      rw [update_self]
      exact (Nat.sub_le ..).trans (once j there)
    · change update mark k (mark k - 1) j ≤ 1
      rw [update_of_ne apart]
      exact once j there
  | @pass k rest mark held =>
    exact ⟨(List.perm_append_singleton k rest).nodup_iff.mpr distinct,
      fun j member => once j ((List.perm_append_singleton k rest).mem_iff.mp member)⟩

theorem fair_of_turns (turns : ReflTransGen (Turn free) s s') (fair : Fair s) : Fair s' := by
  induction turns with
  | refl => exact fair
  | tail _ turn ih => exact turn.fair ih

/-- A turn leaves the order of the free things. -/
theorem Turn.order_eq (turn : Turn free s s') (fair : Fair s) :
    (order s'.2 s'.1).filter free = (order s.2 s.1).filter free := by
  cases turn with
  | @lower k rest mark marked =>
    have fresh : k ∉ rest := (List.nodup_cons.mp fair.distinct).1
    have zero : mark k - 1 = 0 := Nat.sub_eq_zero_of_le (fair.once k List.mem_cons_self)
    have same (p : ℕ → Bool) : rest.filter (fun j => p (update mark k (mark k - 1) j)) = rest.filter (p <| mark ·) :=
      List.filter_congr fun j member => congrArg p (update_of_ne (ne_of_mem_of_not_mem member fresh) ..)
    have kept : order (update mark k (mark k - 1)) (rest ++ [k]) = order mark (k :: rest) := by
      rw [order_cons_of_marked marked.ne', order_concat (by rw [update_self, zero]), same (· = 0), same (· ≠ 0)]
    exact congrArg (List.filter free) kept
  | @pass k rest mark held =>
    have before := @order_filter_of_held _ _ _ mark [] rest held
    have after := @order_filter_of_held _ _ _ mark rest [] held
    rw [List.append_nil] at after
    exact after.trans before.symm

theorem order_of_turns (turns : ReflTransGen (Turn free) s s') (fair : Fair s) :
    (order s'.2 s'.1).filter free = (order s.2 s.1).filter free := by
  induction turns with
  | refl => rfl
  | tail before turn ih => exact (turn.order_eq (fair_of_turns before fair)).trans ih

/-- The ring after some turns: what the hand has not met yet is as it was, and what it has passed and is free has
no mark left. -/
structure Gone (free : κ → Bool) (mark : κ → ℕ) (s : List κ × (κ → ℕ)) (ahead behind : List κ) : Prop where
  whole : s.1 = ahead ++ behind
  same : ∀ k ∈ ahead, s.2 k = mark k
  bare : ∀ k ∈ behind, free k → s.2 k = 0

theorem Turn.gone {mark : κ → ℕ} {ahead behind : List κ} (turn : Turn free s s') (fair : Fair s)
    (gone : Gone free mark s ahead behind) : ∃ ahead behind, Gone free mark s' ahead behind := by
  obtain ⟨whole, same, bare⟩ := gone
  have after (k : κ) (rest : List κ) (mark' : κ → ℕ) (front : s.1 = k :: rest) (last : free k → mark' k = 0)
      (others : ∀ j ∈ rest, mark' j = s.2 j) : ∃ ahead behind, Gone free mark (rest ++ [k], mark') ahead behind := by
    cases ahead with
    | nil =>
      refine ⟨[], rest ++ [k], rfl, nofun, fun j member unpinned => ?_⟩
      rcases List.mem_append.mp member with there | there
      · exact (others j there).trans (bare j (by rw [← List.nil_append behind, ← whole, front]; exact .tail _ there)
          unpinned)
      · obtain rfl := List.mem_singleton.mp there
        exact last unpinned
    | cons first ahead =>
      obtain ⟨rfl, rfl⟩ : k = first ∧ rest = ahead ++ behind := by simpa [front] using whole
      refine ⟨ahead, behind ++ [k], List.append_assoc .., fun j member => ?_, fun j member unpinned => ?_⟩
      · exact (others j (List.mem_append_left _ member)).trans (same j (List.mem_cons_of_mem _ member))
      · rcases List.mem_append.mp member with there | there
        · exact (others j (List.mem_append_right _ there)).trans (bare j there unpinned)
        · obtain rfl := List.mem_singleton.mp there
          exact last unpinned
  cases turn with
  | @lower k rest marks marked =>
    have fresh : k ∉ rest := (List.nodup_cons.mp fair.distinct).1
    refine after k rest _ rfl (fun _ => ?_) fun j member => update_of_ne (ne_of_mem_of_not_mem member fresh) ..
    rw [update_self]
    exact Nat.sub_eq_zero_of_le (fair.once k List.mem_cons_self)
  | @pass k rest marks held => exact after k rest marks rfl (fun unpinned => by simp [held] at unpinned) fun _ _ => rfl

/-- The hand meets what it takes either unmarked and before it has gone once round, or after it has taken the marks of
all that is free. -/
theorem unmarked_of_turns {rest : List κ} {mark : κ → ℕ} (turns : ReflTransGen (Turn free) s (k :: rest, mark))
    (fair : Fair s) (unmarked : mark k = 0) : s.2 k = 0 ∨ ∀ j ∈ k :: rest, free j → mark j = 0 := by
  have reached {s' : List κ × (κ → ℕ)} (turns : ReflTransGen (Turn free) s s') :
      ∃ ahead behind, Gone free s.2 s' ahead behind := by
    induction turns with
    | refl => exact ⟨s.1, [], (List.append_nil _).symm, fun _ _ => rfl, nofun⟩
    | tail before turn ih =>
      obtain ⟨ahead, behind, gone⟩ := ih
      exact turn.gone (fair_of_turns before fair) gone
  obtain ⟨ahead, behind, whole, same, bare⟩ := reached turns
  cases ahead with
  | nil =>
    right
    rw [show k :: rest = behind from whole]
    exact bare
  | cons first ahead =>
    obtain ⟨rfl, _⟩ : k = first ∧ rest = ahead ++ behind := by simpa using whole
    exact Or.inl ((same k List.mem_cons_self).symm.trans unmarked)

end SecondChance
