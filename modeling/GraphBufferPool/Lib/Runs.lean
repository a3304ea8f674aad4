import Mathlib

/-! # Runs of a deterministic system

A run is a list of calls of a partial step function; it ends at the first call that does not return.
`Always` speaks about the states of a run and `Each` about its calls, together with the states they
are made in.
-/

namespace Runs

universe u v w

variable {ε : Type u} {σ : Type v} {α : Type w} (step : σ → α → Except ε σ)

/-- Every state of the run from `s` has the property. -/
def Always (P : σ → Prop) : σ → List α → Prop
  | s, [] => P s
  | s, a :: rest => P s ∧ ∀ s', step s a = .ok s' → Always P s' rest

/-- Every call of the run from `s` that returns meets the condition. -/
def Each (Q : σ → α → Prop) : σ → List α → Prop
  | _, [] => True
  | s, a :: rest => ∀ s', step s a = .ok s' → Q s a ∧ Each Q s' rest

variable {step} {Inv P : σ → Prop} {Allowed Q : σ → α → Prop} {s : σ} {calls : List α}

theorem Always.start (always : Always step P s calls) : P s := by
  cases calls with
  | nil => exact always
  | cons a rest => exact always.1

/-- The last state of a run that returns. -/
theorem Always.final (always : Always step P s calls) {s' : σ} (ran : calls.foldlM step s = .ok s') :
    P s' := by
  induction calls generalizing s with
  | nil =>
    cases ran
    exact always
  | cons a rest ih =>
    rw [List.foldlM_cons] at ran
    cases moved : step s a with
    | error stop =>
      rw [moved] at ran
      cases ran
    | ok next =>
      rw [moved] at ran
      exact ih (always.2 next moved) ran

theorem Always.mono {P' : σ → Prop} (weaker : ∀ s, P s → P' s) (always : Always step P s calls) :
    Always step P' s calls := by
  induction calls generalizing s with
  | nil => exact weaker s always
  | cons a rest ih => exact ⟨weaker s always.1, fun s' moved => ih (always.2 s' moved)⟩

/-- What every call meets. -/
theorem each_of_forall (meets : ∀ s a, Q s a) : Each step Q s calls := by
  induction calls generalizing s with
  | nil => trivial
  | cons a rest ih => exact fun s' _ => ⟨meets s a, ih⟩

/-- The exact rule: where a call keeps the property if and only if it meets a condition, the property
holds throughout a run if and only if every call of it meets the condition. -/
theorem always_iff_each
    (keeps : ∀ s a s', Inv s → P s → Allowed s a → step s a = .ok s' → Inv s' ∧ (P s' ↔ Q s a))
    (start : Inv s) (holds : P s) (allowed : Each step Allowed s calls) :
    Always step P s calls ↔ Each step Q s calls := by
  induction calls generalizing s with
  | nil => exact ⟨fun _ => trivial, fun _ => holds⟩
  | cons a rest ih =>
    constructor
    · rintro ⟨_, always⟩ s' moved
      obtain ⟨here, later⟩ := allowed s' moved
      obtain ⟨next, exact⟩ := keeps s a s' start holds here moved
      have held := (always s' moved).start
      exact ⟨exact.mp held, (ih next held later).mp (always s' moved)⟩
    · intro each
      refine ⟨holds, fun s' moved => ?_⟩
      obtain ⟨here, later⟩ := allowed s' moved
      obtain ⟨next, exact⟩ := keeps s a s' start holds here moved
      obtain ⟨met, rest⟩ := each s' moved
      exact (ih next (exact.mpr met) later).mpr rest

/-- The two-sided rule: where every allowed call keeps the good states good, every other one leads to a bad
state and no call leads back, a run ends good if every call of it was allowed and bad otherwise. -/
theorem final_good_or_bad {Good Bad : σ → Prop}
    (keeps : ∀ s a s', Good s → step s a = .ok s' → Q s a ∧ Good s' ∨ ¬ Q s a ∧ Bad s')
    (stays : ∀ s a s', Bad s → step s a = .ok s' → Bad s') (start : Good s) {s' : σ}
    (ran : calls.foldlM step s = .ok s') :
    Each step Q s calls ∧ Good s' ∨ ¬ Each step Q s calls ∧ Bad s' := by
  have spoilt (rest : List α) : ∀ s, Bad s → rest.foldlM step s = .ok s' → Bad s' := by
    induction rest with
    | nil =>
      intro s bad ran
      cases ran
      exact bad
    | cons a rest ih =>
      intro s bad ran
      rw [List.foldlM_cons] at ran
      cases moved : step s a with
      | error stop =>
        rw [moved] at ran
        cases ran
      | ok next =>
        rw [moved] at ran
        exact ih next (stays s a next bad moved) ran
  induction calls generalizing s with
  | nil =>
    cases ran
    exact Or.inl ⟨trivial, start⟩
  | cons a rest ih =>
    rw [List.foldlM_cons] at ran
    cases moved : step s a with
    | error stop =>
      rw [moved] at ran
      cases ran
    | ok next =>
      rw [moved] at ran
      have each : Each step Q s (a :: rest) ↔ Q s a ∧ Each step Q next rest := by
        constructor
        · exact fun all => all next moved
        · intro both after same
          cases moved.symm.trans same
          exact both
      rw [each]
      rcases keeps s a next start moved with ⟨met, good⟩ | ⟨broken, bad⟩
      · rcases ih good ran with ⟨all, final⟩ | ⟨some, final⟩
        · exact Or.inl ⟨⟨met, all⟩, final⟩
        · exact Or.inr ⟨fun both => some both.2, final⟩
      · exact Or.inr ⟨fun both => broken both.1, spoilt rest next bad ran⟩

omit step in
/-- The exact rule for a total step: where the calls that meet a condition keep an invariant that has the
property, and every other one loses the property, it holds after every part of a run if and only if all
calls meet the condition. -/
theorem prefixes_iff {f : σ → α → σ} {Q : α → Prop} (holds : ∀ s, Inv s → P s)
    (keeps : ∀ s a, Inv s → Q a → Inv (f s a)) (breaks : ∀ s a, Inv s → ¬ Q a → ¬ P (f s a)) (start : Inv s) :
    (∀ before, before <+: calls → P (before.foldl f s)) ↔ ∀ a ∈ calls, Q a := by
  induction calls generalizing s with
  | nil =>
    refine ⟨fun _ => by simp, fun _ before none => ?_⟩
    rw [List.prefix_nil.mp none]
    exact holds s start
  | cons a rest ih =>
    constructor
    · intro all
      have met : Q a := by
        by_contra broken
        exact breaks s a start broken (all [a] ⟨rest, rfl⟩)
      have later := (ih (keeps s a start met)).mp fun before early =>
        all (a :: before) (List.cons_prefix_cons.mpr ⟨rfl, early⟩)
      intro call member
      rcases List.mem_cons.mp member with rfl | member
      · exact met
      · exact later call member
    · intro all before early
      cases before with
      | nil => exact holds s start
      | cons call before =>
        obtain ⟨rfl, rest⟩ := List.cons_prefix_cons.mp early
        have met := all call (List.mem_cons_self ..)
        exact (ih (keeps s call start met)).mpr (fun b member => all b (List.mem_cons_of_mem _ member)) before rest

end Runs
