import Mathlib

/-! # Locks that are a marker value of the locked cell

A cell is locked by writing a reserved value into it. Who locked it is not recorded in the cell, so
ownership is an invariant: each marked cell was marked by exactly one agent, which knows the value
it will write back.
-/

namespace MarkerLock

open Function

variable {κ ω T : Type*} [DecidableEq κ] [DecidableEq T]

/-- `locks t` are the cells agent `t` marked, the latest first, with the value it will write. -/
structure Held (marker : ω) (cell : κ → ω) (locks : T → List (κ × ω)) : Prop where
  marked : ∀ key, cell key = marker ↔ ∃ t word, (key, word) ∈ locks t
  owner : ∀ {t t' key word word'}, (key, word) ∈ locks t → (key, word') ∈ locks t' →
    t = t' ∧ word = word'
  nodup : ∀ t, (locks t).Nodup
  unmarked : ∀ t key, (key, marker) ∉ locks t

namespace Held

variable {marker : ω} {cell : κ → ω} {locks : T → List (κ × ω)}

omit [DecidableEq κ] in
theorem mem_update {t t' : T} {held : List (κ × ω)} {entry : κ × ω} :
    entry ∈ update locks t held t' ↔ t' = t ∧ entry ∈ held ∨ t' ≠ t ∧ entry ∈ locks t' := by
  by_cases here : t' = t
  · subst here
    simp
  · simp [here]

omit [DecidableEq κ] [DecidableEq T] in
theorem marked_of_mem (table : Held marker cell locks) {t : T} {key : κ} {word : ω}
    (member : (key, word) ∈ locks t) : cell key = marker :=
  (table.marked key).mpr ⟨t, word, member⟩

omit [DecidableEq κ] [DecidableEq T] in
/-- The latest cell an agent marked is not among its earlier ones. -/
theorem fresh (table : Held marker cell locks) {t : T} {key : κ} {word : ω} {rest : List (κ × ω)}
    (held : locks t = (key, word) :: rest) (word' : ω) : (key, word') ∉ rest := by
  intro member
  have latest : (key, word) ∈ locks t := by rw [held]; exact List.mem_cons_self ..
  have earlier : (key, word') ∈ locks t := by rw [held]; exact List.mem_cons_of_mem _ member
  have same := (table.owner latest earlier).2
  have distinct := table.nodup t
  rw [held, List.nodup_cons] at distinct
  exact distinct.1 (same ▸ member)

omit [DecidableEq κ] in
/-- The cells held after marking one more. -/
theorem mem_acquire {t t' : T} {new entry : κ × ω} :
    entry ∈ update locks t (new :: locks t) t' ↔ t' = t ∧ entry = new ∨ entry ∈ locks t' := by
  rw [mem_update, List.mem_cons]
  by_cases here : t' = t
  · subst here
    simp
  · simp [here]

omit [DecidableEq κ] in
/-- The cells held after giving the latest one back. -/
theorem mem_release (table : Held marker cell locks) {t t' : T} {key : κ} {word : ω}
    {rest : List (κ × ω)} (held : locks t = (key, word) :: rest) {entry : κ × ω} :
    entry ∈ update locks t rest t' ↔ entry.1 ≠ key ∧ entry ∈ locks t' := by
  have member : (key, word) ∈ locks t := by rw [held]; exact List.mem_cons_self ..
  rw [mem_update]
  constructor
  · rintro (⟨rfl, later⟩ | ⟨other, later⟩)
    · refine ⟨?_, by rw [held]; exact List.mem_cons_of_mem _ later⟩
      rintro rfl
      exact table.fresh held _ later
    · refine ⟨?_, later⟩
      rintro rfl
      exact other (table.owner later member).1
  · rintro ⟨other, later⟩
    by_cases here : t' = t
    · subst here
      rw [held, List.mem_cons] at later
      refine Or.inl ⟨rfl, later.resolve_left ?_⟩
      rintro rfl
      exact other rfl
    · exact Or.inr ⟨here, later⟩

omit [DecidableEq κ] in
/-- The cells held after the latest one got another value to write back. -/
theorem mem_redirect (table : Held marker cell locks) {t t' : T} {key : κ} {word word' : ω}
    {rest : List (κ × ω)} (held : locks t = (key, word) :: rest) {entry : κ × ω} :
    entry ∈ update locks t ((key, word') :: rest) t' ↔
      t' = t ∧ entry = (key, word') ∨ entry.1 ≠ key ∧ entry ∈ locks t' := by
  rw [← table.mem_release held, mem_update, mem_update, List.mem_cons]
  tauto

/-- Marking a cell. -/
theorem acquire (table : Held marker cell locks) {key : κ} (free : cell key ≠ marker) (t : T) :
    Held marker (update cell key marker) (update locks t ((key, cell key) :: locks t)) := by
  have unheld (t' : T) (word : ω) : (key, word) ∉ locks t' :=
    fun member => free (table.marked_of_mem member)
  constructor
  · intro key'
    by_cases here : key' = key
    · subst here
      simp only [update_self, true_iff]
      exact ⟨t, _, mem_acquire.mpr (Or.inl ⟨rfl, rfl⟩)⟩
    · rw [update_of_ne here, table.marked]
      simp [mem_acquire, here]
  · intro t₁ t₂ key' word word' first second
    rw [mem_acquire] at first second
    rcases first with ⟨rfl, first⟩ | first <;> rcases second with ⟨rfl, second⟩ | second
    · exact ⟨rfl, (Prod.mk.inj first).2.trans (Prod.mk.inj second).2.symm⟩
    · obtain ⟨rfl, _⟩ := Prod.mk.inj first
      exact absurd second (unheld _ _)
    · obtain ⟨rfl, _⟩ := Prod.mk.inj second
      exact absurd first (unheld _ _)
    · exact table.owner first second
  · intro t'
    by_cases here : t' = t
    · subst here
      rw [update_self]
      exact List.nodup_cons.mpr ⟨unheld _ _, table.nodup _⟩
    · rw [update_of_ne here]
      exact table.nodup _
  · intro t' key' member
    rcases mem_acquire.mp member with ⟨_, same⟩ | member
    · exact free (Prod.mk.inj same).2.symm
    · exact table.unmarked _ _ member

/-- Writing a value into the latest marked cell. -/
theorem release (table : Held marker cell locks) {t : T} {key : κ} {word : ω}
    {rest : List (κ × ω)} (held : locks t = (key, word) :: rest) {word' : ω}
    (proper : word' ≠ marker) : Held marker (update cell key word') (update locks t rest) := by
  have split {t' : T} {entry : κ × ω} :
      entry ∈ update locks t rest t' ↔ entry.1 ≠ key ∧ entry ∈ locks t' := table.mem_release held
  constructor
  · intro key'
    by_cases here : key' = key
    · subst here
      simp [split, proper]
    · rw [update_of_ne here, table.marked]
      simp [split, here]
  · intro t₁ t₂ key' word₁ word₂ first second
    exact table.owner (split.mp first).2 (split.mp second).2
  · intro t'
    by_cases here : t' = t
    · subst here
      rw [update_self]
      have distinct := table.nodup t'
      rw [held] at distinct
      exact (List.nodup_cons.mp distinct).2
    · rw [update_of_ne here]
      exact table.nodup _
  · intro t' key' later
    exact table.unmarked _ _ (split.mp later).2

/-- Deciding on another value to write back. -/
theorem redirect (table : Held marker cell locks) {t : T} {key : κ} {word word' : ω}
    {rest : List (κ × ω)} (held : locks t = (key, word) :: rest) (proper : word' ≠ marker) :
    Held marker cell (update locks t ((key, word') :: rest)) := by
  have member : (key, word) ∈ locks t := by rw [held]; exact List.mem_cons_self ..
  have free : update cell key word' key ≠ marker := by rwa [update_self]
  have again := (table.release held proper).acquire free t
  have restored : update (update cell key word') key marker = cell := by
    rw [update_idem, ← table.marked_of_mem member, update_eq_self]
  rwa [restored, update_idem, update_self, update_self] at again

end Held

end MarkerLock
