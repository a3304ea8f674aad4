import Mathlib

/-! # Rings of slots

Items are put into a ring of slots at positions that count up, each position in the slot that is its
remainder. As long as fewer items than slots wait to be taken, no waiting item shares its slot with
another or with the next one put in.
-/

universe u

namespace Ring

variable {α : Type u} {slots taken put k : ℕ}

/-- Positions less than a round apart in the same slot are the same. -/
theorem eq_of_slot_eq (order : taken ≤ k) (near : k < taken + slots) (same : k % slots = taken % slots) :
    k = taken := by
  have apart : slots ∣ k - taken := (Nat.modEq_iff_dvd' order).mp same.symm
  have small : k - taken < slots := by omega
  have none := Nat.eq_zero_of_dvd_of_lt apart small
  omega

/-- The slot after the last item is that of the first waiting one only in a full ring. -/
theorem full_of_slot_eq (order : taken ≤ put) (near : put < taken + slots)
    (same : (put + 1) % slots = taken % slots) : put + 1 = taken + slots := by
  by_contra room
  have met := @eq_of_slot_eq slots taken (put + 1) (by omega) (by omega) same
  omega

/-- The slots of the waiting items hold them. -/
def Window (slots : ℕ) (buffer : ℕ → α) (items : List α) (taken : ℕ) : Prop :=
  ∀ k x, taken ≤ k → items[k]? = some x → buffer (k % slots) = x

variable {buffer : ℕ → α} {items : List α} {x : α}

/-- Nothing waits yet. -/
theorem window_nil : Window slots buffer [] taken := by
  intro k x _ here
  simp at here

/-- The next slot may be written as long as the ring is not full. -/
theorem Window.write (window : Window slots buffer items taken) (near : items.length < taken + slots) (x : α) :
    Window slots (Function.update buffer (items.length % slots) x) items taken := by
  intro k y waits here
  obtain ⟨inside, _⟩ := List.getElem?_eq_some_iff.mp here
  rw [Function.update_of_ne, window k y waits here]
  intro same
  have met := @eq_of_slot_eq slots k items.length inside.le (by omega) same.symm
  omega

/-- The item in the next slot joins the waiting ones. -/
theorem Window.enqueue (window : Window slots buffer items taken) (holds : buffer (items.length % slots) = x) :
    Window slots buffer (items ++ [x]) taken := by
  intro k y waits here
  rw [List.getElem?_append] at here
  split_ifs at here with inside
  · exact window k y waits here
  · obtain ⟨bound, value⟩ := List.getElem?_eq_some_iff.mp here
    obtain rfl : k = items.length := by simp at bound; omega
    simpa [holds] using value

/-- The first waiting item is taken. -/
theorem Window.dequeue (window : Window slots buffer items taken) : Window slots buffer items (taken + 1) :=
  fun k y waits here => window k y (by omega) here

end Ring
