import Mathlib

/-! # What named holders hold together

Finitely many holders are alive, each with a value that holds something. What they hold in total
changes by what one holder gets or loses, and handing a value over from one holder to another loses
only what the second one held before.
-/

namespace Holdings

open Function

universe u v w

variable {V : Type u} {B : Type v} {M : Type w}

/-- What the holders alive hold together. -/
def total [AddCommMonoid M] (held : B → M) (value : V → B) (alive : Finset V) : M := ∑ v ∈ alive, held (value v)

variable [DecidableEq V] {held : B → M} {value : V → B} {alive : Finset V} {v src dst : V}

section sums

variable [AddCommMonoid M]

/-- A holder alive gets another value. -/
theorem total_update (live : v ∈ alive) (b : B) :
    total held (update value v b) alive + held (value v) = total held value alive + held b := by
  have others : ∑ u ∈ alive.erase v, held (update value v b u) = ∑ u ∈ alive.erase v, held (value u) := by
    refine Finset.sum_congr rfl fun u member => ?_
    rw [update_of_ne (Finset.ne_of_mem_erase member)]
  rw [total, total, ← Finset.add_sum_erase alive _ live,
    ← Finset.add_sum_erase alive (fun u => held (value u)) live, others, update_self]
  abel

/-- A new holder. -/
theorem total_insert (fresh : v ∉ alive) (b : B) :
    total held (update value v b) (insert v alive) = total held value alive + held b := by
  rw [total, Finset.sum_insert fresh, update_self, add_comm]
  congr 1
  refine Finset.sum_congr rfl fun u member => ?_
  rw [update_of_ne]
  rintro rfl
  exact fresh member

/-- The end of a holder. -/
theorem total_erase (live : v ∈ alive) (b : B) :
    total held (update value v b) (alive.erase v) + held (value v) = total held value alive := by
  rw [total, total, ← Finset.sum_erase_add alive _ live]
  congr 1
  refine Finset.sum_congr rfl fun u member => ?_
  rw [update_of_ne (Finset.ne_of_mem_erase member)]

end sums

/-- A holder drops what it has and takes over the value of another one, which may be itself. -/
theorem total_move [AddCancelCommMonoid M] (live : dst ∈ alive) (source : src ∈ alive) {freed emptied : B}
    (nothing : held freed = 0) (left : held emptied = 0) :
    total held (update (update (update value dst freed) dst (update value dst freed src)) src emptied) alive +
      held (value dst) = total held value alive := by
  set first := update value dst freed with first_eq
  set second := update first dst (first src) with second_eq
  have here : first dst = freed := update_self ..
  have same : second src = first src := by
    by_cases self : src = dst
    · rw [second_eq, self, update_self]
    · exact update_of_ne self ..
  have dropped := @total_update _ _ _ _ held value alive _ _ live freed
  have handed := @total_update _ _ _ _ held first alive _ _ live (first src)
  have gave := @total_update _ _ _ _ held second alive _ _ source emptied
  rw [nothing, add_zero] at dropped
  rw [here, nothing, add_zero] at handed
  rw [left, add_zero, same] at gave
  have given : total held (update second src emptied) alive = total held first alive :=
    add_right_cancel (gave.trans handed)
  rw [given, dropped]

end Holdings
