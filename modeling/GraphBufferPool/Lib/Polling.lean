import GraphBufferPool.Lib.Fuel

/-! # Functions that are called until they are done

A resumable function keeps its state between calls and says of each call whether it has ended. `Completes` is the
loop that calls it again until it has; the `n`-th call finds `input n` outside, such as whether an awaited event has
happened by then. `Settles` says that the outcome of the loop does not depend on what the calls find.
-/

namespace Fuel

universe u v w

variable {ε : Type u} {σ : Type v} {α : Type w}

/-- The calls from state `s` end in state `s'`. -/
inductive Completes (call : α → σ → ℕ → Except ε (Bool × σ)) : (ℕ → α) → σ → σ → Prop
  | last {input : ℕ → α} {s s' : σ} (ran : Returns (call (input 0) s) (true, s')) : Completes call input s s'
  | next {input : ℕ → α} {s mid s' : σ} (ran : Returns (call (input 0) s) (false, mid))
      (rest : Completes call (fun n => input (n + 1)) mid s') : Completes call input s s'

/-- Calls that end from state `s` end in `final`, and they end if they find `ready` again and again. -/
structure Settles (ready : α → Prop) (call : α → σ → ℕ → Except ε (Bool × σ)) (s final : σ) : Prop where
  only : ∀ input s', Completes call input s s' → s' = final
  ends : ∀ input : ℕ → α, (∀ n, ∃ k ≥ n, ready (input k)) → Completes call input s final

variable {ready : α → Prop} {call : α → σ → ℕ → Except ε (Bool × σ)} {s final : σ}

/-- What a call from `s` may do where the calls settle. -/
inductive Settling (ready : α → Prop) (call : α → σ → ℕ → Except ε (Bool × σ)) (s final : σ) (a : α) : Prop
  | last (ran : Returns (call a s) (true, final))
  | next {mid : σ} (ran : Returns (call a s) (false, mid)) (rest : Settles ready call mid final)
  | wait (busy : ¬ ready a) (ran : Returns (call a s) (false, s))

/-- The rule for a state: each call from it ends, goes on to a state where the calls settle, or waits. -/
theorem Settles.of_calls (calls : ∀ a, Settling ready call s final a) : Settles ready call s final where
  only := by
    intro input s' whole
    generalize start : s = first at whole
    induction whole with
    | @last input _ _ ran =>
      subst start
      cases calls (input 0) with
      | last ran' =>
        cases ran.unique ran'
        rfl
      | next ran' | wait _ ran' => cases ran.unique ran'
    | @next input _ _ _ ran rest ih =>
      subst start
      cases calls (input 0) with
      | last ran' => cases ran.unique ran'
      | next ran' settles =>
        cases ran.unique ran'
        exact settles.only _ _ rest
      | wait _ ran' =>
        cases ran.unique ran'
        exact ih rfl
  ends := by
    intro input often
    obtain ⟨k, _, here⟩ := often 0
    induction k generalizing input with
    | zero =>
      cases calls (input 0) with
      | last ran => exact .last ran
      | next ran rest =>
        apply Completes.next ran
        apply rest.ends
        intro n
        obtain ⟨k, past, here⟩ := often (n + 1)
        exact ⟨k - 1, by omega, by rwa [Nat.sub_add_cancel (by omega)]⟩
      | wait busy => exact absurd here busy
    | succ k ih =>
      have later (n : ℕ) : ∃ j ≥ n, ready (input (j + 1)) := by
        obtain ⟨j, past, here⟩ := often (n + 1)
        exact ⟨j - 1, by omega, by rwa [Nat.sub_add_cancel (by omega)]⟩
      cases calls (input 0) with
      | last ran => exact .last ran
      | next ran rest => exact .next ran (rest.ends _ later)
      | wait _ ran => exact .next ran (ih _ later (Nat.zero_le k) here)

/-- A state that every call leaves for the final one. -/
theorem Settles.last (ran : ∀ a, Returns (call a s) (true, final)) : Settles ready call s final :=
  .of_calls fun a => .last (ran a)

/-- A state that every call leaves for another one. -/
theorem Settles.next {mid : σ} (ran : ∀ a, Returns (call a s) (false, mid)) (rest : Settles ready call mid final) :
    Settles ready call s final :=
  .of_calls fun a => .next (ran a) rest

end Fuel
