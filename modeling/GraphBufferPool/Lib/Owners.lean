import Mathlib

/-! # Resources with one owner

An object holds one resource or none. The live resources are owned where each of them has exactly one
holder and nothing else is held; taking, giving back and handing over a resource keep this, and
dropping one loses it.
-/

namespace Ownership

open Function

universe u v

variable {O : Type u} {H : Type v}

/-- Each live resource has one holder, and only live ones are held. -/
structure Owners (owner : O → Option H) (live : Set H) : Prop where
  held : ∀ h, h ∈ live ↔ ∃ o, owner o = some h
  unique : ∀ o p h, owner o = some h → owner p = some h → o = p

/-- A live resource that nobody holds. -/
def Lost (owner : O → Option H) (live : Set H) : Prop := ∃ h ∈ live, ∀ o, owner o ≠ some h

variable {owner : O → Option H} {live : Set H}

theorem Owners.nobody : Owners (fun _ : O => (none : Option H)) ∅ :=
  ⟨fun _ => ⟨nofun, fun ⟨_, same⟩ => nomatch same⟩, nofun⟩

theorem Owners.mem (owners : Owners owner live) {o : O} {h : H} (here : owner o = some h) : h ∈ live :=
  (owners.held h).mpr ⟨o, here⟩

variable [DecidableEq O]

/-- An object without a resource takes a new one. -/
theorem Owners.acquire (owners : Owners owner live) {o : O} {h : H} (empty : owner o = none)
    (fresh : h ∉ live) : Owners (update owner o (some h)) (insert h live) := by
  constructor
  · intro k
    constructor
    · rintro (rfl | member)
      · exact ⟨o, update_self ..⟩
      · obtain ⟨p, here⟩ := (owners.held k).mp member
        refine ⟨p, ?_⟩
        rw [update_of_ne _, here]
        rintro rfl
        rw [empty] at here
        cases here
    · rintro ⟨p, here⟩
      by_cases same : p = o
      · subst same
        rw [update_self] at here
        exact Or.inl (Option.some.inj here).symm
      · rw [update_of_ne same] at here
        exact Or.inr (owners.mem here)
  · intro p q k first second
    by_cases here : p = o <;> by_cases there : q = o
    · exact here.trans there.symm
    · subst here
      rw [update_self] at first
      rw [update_of_ne there] at second
      cases first
      exact absurd (owners.mem second) fresh
    · subst there
      rw [update_self] at second
      rw [update_of_ne here] at first
      cases second
      exact absurd (owners.mem first) fresh
    · rw [update_of_ne here] at first
      rw [update_of_ne there] at second
      exact owners.unique p q k first second

/-- The holder gives a resource back. -/
theorem Owners.release (owners : Owners owner live) {o : O} {h : H} (here : owner o = some h) :
    Owners (update owner o none) (live \ {h}) := by
  constructor
  · intro k
    rw [Set.mem_sdiff, Set.mem_singleton_iff]
    constructor
    · rintro ⟨member, other⟩
      obtain ⟨p, holds⟩ := (owners.held k).mp member
      refine ⟨p, ?_⟩
      rw [update_of_ne _, holds]
      rintro rfl
      exact other (Option.some.inj (holds.symm.trans here))
    · rintro ⟨p, holds⟩
      by_cases same : p = o
      · subst same
        rw [update_self] at holds
        cases holds
      · rw [update_of_ne same] at holds
        refine ⟨owners.mem holds, ?_⟩
        rintro rfl
        exact same (owners.unique p o k holds here)
  · intro p q k first second
    by_cases there : p = o
    · rw [there, update_self] at first
      cases first
    · by_cases also : q = o
      · rw [also, update_self] at second
        cases second
      · rw [update_of_ne there] at first
        rw [update_of_ne also] at second
        exact owners.unique p q k first second

/-- An object without a resource takes over what another one holds. -/
theorem Owners.transfer (owners : Owners owner live) {o p : O} (empty : owner o = none) (other : o ≠ p) :
    Owners (update (update owner o (owner p)) p none) live := by
  have moved (q : O) : update (update owner o (owner p)) p none q =
      if q = p then none else if q = o then owner p else owner q := by
    simp only [update_apply]
  constructor
  · intro k
    rw [owners.held k]
    constructor
    · rintro ⟨q, holds⟩
      by_cases here : q = p
      · refine ⟨o, ?_⟩
        rw [moved, if_neg other, if_pos rfl, ← here, holds]
      · refine ⟨q, ?_⟩
        rw [moved, if_neg here, if_neg _, holds]
        rintro rfl
        rw [empty] at holds
        cases holds
    · rintro ⟨q, holds⟩
      rw [moved] at holds
      split_ifs at holds
      · exact ⟨p, holds⟩
      · exact ⟨q, holds⟩
  · intro q r k first second
    rw [moved] at first second
    split_ifs at first second with notP here notQ there
    · exact here.trans there.symm
    · exact absurd (owners.unique r p k second first) notQ
    · exact absurd (owners.unique q p k first second) notP
    · exact owners.unique q r k first second

omit [DecidableEq O] in
/-- A holder that drops its resource loses it. -/
theorem Owners.drop (owners : Owners owner live) {o : O} {h : H} (here : owner o = some h)
    {owner' : O → Option H} (dropped : ∀ p, owner' p = some h → p ≠ o ∧ owner p = some h) :
    Lost owner' live := by
  refine ⟨h, owners.mem here, fun p holds => ?_⟩
  obtain ⟨other, also⟩ := dropped p holds
  exact other (owners.unique p o h also here)

end Ownership
