import GraphBufferPool.Lib.Counting
import GraphBufferPool.Lib.Reach

/-! # Reader-writer locks

What a lock with shared and exclusive holders is for, and the rule by which an implementation refines it: whatever its
threads do, the holders change as those of such a lock. Implementations count their readers and raise a flag for a
writer; `Claimed` says that the flag has one owner.
-/

namespace Machine

universe u v

/-- Where every step of a machine is a step of another one or is not seen there, its runs are runs of the other. -/
theorem Reach.refines {σ : Type u} {τ : Type v} {Init : σ → Prop} {Step : σ → σ → Prop} {Init' : τ → Prop}
    {Step' : τ → τ → Prop} {Inv : σ → Prop} (view : σ → τ) (initial : ∀ s, Init s → Inv s ∧ Init' (view s))
    (steps : ∀ s s', Inv s → Step s s' → Inv s' ∧ (view s' = view s ∨ Step' (view s) (view s'))) {s : σ}
    (run : Reach Init Step s) : Inv s ∧ Reach Init' Step' (view s) := by
  induction run with
  | init start => exact (initial _ start).imp id .init
  | step _ move ih =>
    obtain ⟨inv, seen⟩ := ih
    obtain ⟨inv', same | moved⟩ := steps _ _ inv move
    · exact ⟨inv', same ▸ seen⟩
    · exact ⟨inv', seen.step moved⟩

end Machine

namespace SharedLock

open Function Machine

universe u

variable {T : Type u} [DecidableEq T]

/-- How a thread holds the lock. -/
inductive Hold
  | none
  | shared
  | exclusive
deriving DecidableEq, Repr

/-- A thread gets or gives up the lock. -/
inductive Step : (T → Hold) → (T → Hold) → Prop
  | share {held : T → Hold} {t : T} (out : held t = .none) (free : ∀ u, held u ≠ .exclusive) :
      Step held (update held t .shared)
  | lock {held : T → Hold} {t : T} (free : ∀ u, held u = .none) : Step held (update held t .exclusive)
  | unlock {held : T → Hold} {t : T} (holds : held t ≠ .none) : Step held (update held t .none)

/-- The lock starts with no holder. -/
abbrev Run (held : T → Hold) : Prop := Reach (fun held => ∀ t, held t = .none) Step held

/-- A thread that holds the lock exclusively is its only holder. -/
theorem Run.exclusive {held : T → Hold} (run : Run held) : ∀ t u, held t = .exclusive → held u ≠ .none → u = t := by
  induction run with
  | init start =>
    intro t u locked
    rw [start t] at locked
    cases locked
  | step _ move ih =>
    intro t u locked holds
    cases move with
    | @share v _ free =>
      rcases eq_or_ne t v with rfl | apart
      · rw [update_self] at locked
        cases locked
      · rw [update_of_ne apart] at locked
        exact absurd locked (free t)
    | @lock v free =>
      rcases eq_or_ne t v with rfl | apart
      · by_contra other
        rw [update_of_ne other] at holds
        exact holds (free u)
      · rw [update_of_ne apart, free t] at locked
        cases locked
    | @unlock v _ =>
      rcases eq_or_ne t v with rfl | apart
      · rw [update_self] at locked
        cases locked
      · rcases eq_or_ne u v with rfl | other
        · rw [update_self] at holds
          exact absurd rfl holds
        · rw [update_of_ne apart] at locked
          rw [update_of_ne other] at holds
          exact ih t u locked holds

/-- The increment of a counter of `w` bits. -/
def increment (w n : ℕ) : ℕ := (n + 1) % 2 ^ w

/-- The decrement of a counter of `w` bits. -/
def decrement (w n : ℕ) : ℕ := (n + (2 ^ w - 1)) % 2 ^ w

theorem increment_eq {w n : ℕ} (room : n + 1 < 2 ^ w) : increment w n = n + 1 := Nat.mod_eq_of_lt room

theorem decrement_eq {w n : ℕ} (bound : n < 2 ^ w) (positive : 0 < n) : decrement w n = n - 1 := by
  have same : n + (2 ^ w - 1) = n - 1 + 2 ^ w := by omega
  rw [decrement, same, Nat.add_mod_right, Nat.mod_eq_of_lt (by omega)]

/-- The flag is up while one thread claims it, and down while none does. -/
def Claimed (flag : Bool) (claims : T → Prop) : Prop :=
  flag = false ∧ (∀ t, ¬ claims t) ∨ flag = true ∧ ∃ t, ∀ u, claims u ↔ u = t

namespace Claimed

variable {flag : Bool} {claims claims' : T → Prop} {t : T}

omit [DecidableEq T] in
theorem down (claimed : Claimed false claims) (t : T) : ¬ claims t := by
  rcases claimed with ⟨_, none⟩ | ⟨wrong, _⟩
  · exact none t
  · cases wrong

omit [DecidableEq T] in
theorem up (claimed : Claimed flag claims) (here : claims t) : flag = true ∧ ∀ u, claims u ↔ u = t := by
  rcases claimed with ⟨_, none⟩ | ⟨raised, owner, claims_iff⟩
  · exact absurd here (none t)
  · obtain rfl := (claims_iff t).mp here
    exact ⟨raised, claims_iff⟩

omit [DecidableEq T] in
theorem congr (claimed : Claimed flag claims) (same : ∀ u, claims' u ↔ claims u) : Claimed flag claims' := by
  obtain rfl : claims' = claims := funext fun u => propext (same u)
  exact claimed

omit [DecidableEq T] in
/-- A thread raises the flag. -/
theorem raise (claimed : Claimed false claims) (here : claims' t) (others : ∀ u ≠ t, claims' u ↔ claims u) :
    Claimed true claims' := by
  refine Or.inr ⟨rfl, t, fun u => ⟨fun claimsIt => ?_, ?_⟩⟩
  · by_contra apart
    exact claimed.down u ((others u apart).mp claimsIt)
  · rintro rfl
    exact here

omit [DecidableEq T] in
/-- Its owner takes the flag down. -/
theorem lower (claimed : Claimed flag claims) (here : claims t) (gone : ¬ claims' t)
    (others : ∀ u ≠ t, claims' u ↔ claims u) : Claimed false claims' := by
  refine Or.inl ⟨rfl, fun u claimsIt => ?_⟩
  rcases eq_or_ne u t with rfl | apart
  · exact gone claimsIt
  · exact apart (((claimed.up here).2 u).mp ((others u apart).mp claimsIt))

end Claimed

end SharedLock
