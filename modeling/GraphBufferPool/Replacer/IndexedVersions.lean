import GraphBufferPool.Replacer.IndexedRuns
import GraphBufferPool.Replacer.SieveAgreement

/-! # The SIEVE replacers agree

The three SIEVE replacers, started empty with the same capacity and given the same calls in consistent pools with
something to evict, return the same frames and leave the same page tables.
-/

namespace Gbp

/-- A call of a pool agrees on replacers that correspond. -/
theorem Corresponds.answer {R A : Type} [Policy R] [Policy A] {Rel : R → A → Prop} (corresponds : Corresponds Rel)
    {r : R} {a : A} (related : Rel r a) (call : PoolCall) :
    Agree (fun x y => x.1 = y.1 ∧ Rel x.2 y.2) (answer r call) (answer a call) := by
  cases call with
  | insert m =>
    refine (corresponds.insert r a m related).bind ?_
    rintro ⟨result, r'⟩ ⟨_, a'⟩ ⟨rfl, next⟩
    exact .ok ⟨rfl, next⟩
  | promote m =>
    refine (corresponds.promote r a m related).bind ?_
    rintro ⟨result, r'⟩ ⟨_, a'⟩ ⟨rfl, next⟩
    exact .ok ⟨rfl, next⟩
  | victim pt =>
    refine (corresponds.victim 0 r a pt related).bind ?_
    rintro ⟨taken, r', table⟩ ⟨_, a', _⟩ ⟨rfl, next, rfl⟩
    exact .ok ⟨rfl, next⟩

namespace Indexed

open Gbp.SieveReplacer_v3 (insert_shape promote_shape victim_shape)

/-- The tracked frames after a call, the latest in front. -/
def trackedAfter (tracked : List ℕ) : PoolCall → Answer → List ℕ
  | .insert m, _ => m :: tracked
  | .victim _, .victim (some m) _ => tracked.erase m
  | _, _ => tracked

/-- A call as pools make it: `Insert` of an untracked frame, `Promote` of a tracked one, and `Victim` in a consistent pool
with an evictable tracked frame. -/
def Admissible (capacity : ℕ) (tracked : List ℕ) : PoolCall → Prop
  | .insert m => m < capacity ∧ m ∉ tracked
  | .promote m => m ∈ tracked
  | .victim pt => pt.Consistent tracked ∧ ∃ m ∈ tracked, pt.Evictable m

/-- Every call of the sequence is admissible when it is made to `SieveReplacer_v3`. -/
def Admits (capacity : ℕ) : SieveReplacer_v3 → List ℕ → List PoolCall → Prop
  | _, _, [] => True
  | r, tracked, call :: rest => Admissible capacity tracked call ∧
      ∀ a r', answer r call = .ok (a, r') → Admits capacity r' (trackedAfter tracked call a) rest

/-- The three replacers return the same results, the same victims and the same page tables. -/
def SameAnswers (capacity : ℕ) (calls : List PoolCall) : Prop :=
  ∃ results r₁ r₂ r₃, answers SieveReplacer.new calls = .ok (results, r₁) ∧
    answers (SieveReplacer_v2.new capacity) calls = .ok (results, r₂) ∧
      answers (SieveReplacer_v3.new capacity) calls = .ok (results, r₃)

variable {capacity : ℕ} {tracked : List ℕ} {r₁ : SieveReplacer} {r₂ : SieveReplacer_v2} {r₃ : SieveReplacer_v3}

/-- What an admissible call does to the sequence of the tracked frames. -/
theorem answer_shape {a a' : Gbp.SieveReplacer_v3} (ready : a.Ready) {call : PoolCall} (admissible : a.Admissible call)
    {result : Answer} (ran : answer a call = .ok (result, a')) :
    a'.list.nodes = trackedAfter a.list.nodes call result ∧ a'.list.capacity = a.list.capacity := by
  cases call with
  | insert m =>
    obtain ⟨⟨done, after⟩, inserted, ran⟩ := bind_eq_ok.mp ran
    obtain ⟨-, shape⟩ := insert_shape inserted
    cases ran
    cases shape
    have untracked : m ∉ a.list.nodes := admissible.2
    exact ⟨congrArg (m :: ·) (List.erase_of_not_mem untracked), rfl⟩
  | promote m =>
    obtain ⟨⟨done, after⟩, promoted, ran⟩ := bind_eq_ok.mp ran
    obtain ⟨-, shape⟩ := promote_shape promoted
    cases ran
    cases shape
    exact ⟨rfl, rfl⟩
  | victim pt =>
    obtain ⟨⟨taken, after, table⟩, swept, ran⟩ := bind_eq_ok.mp ran
    have consistent : pt.Consistent a.list.nodes := admissible.1
    obtain ⟨j, linked, -, -, found, -⟩ := victim_shape ready.1.distinct ready.2 swept
    obtain rfl : taken = some j := found
    obtain ⟨-, -, -, capacity, nodes, -⟩ := ready.victim_sound (fun k linked => consistent.answers linked) swept
    cases ran
    exact ⟨nodes, capacity⟩

/-- The three replacers track the same frames with the same marks and the same hand. -/
structure AllAgree (capacity : ℕ) (tracked : List ℕ) (r₁ : SieveReplacer) (r₂ : SieveReplacer_v2)
    (r₃ : SieveReplacer_v3) (a₂ : Gbp.SieveReplacer_v2) (a₃ : Gbp.SieveReplacer_v3) : Prop where
  agree : SieveAgree r₁ a₂ a₃
  second : r₂.Simulates a₂
  third : r₃.Simulates a₃
  nodes : a₃.list.nodes = tracked
  size : a₃.list.capacity = capacity

theorem allAgree_new (fits : capacity < indexRange - 2) :
    AllAgree capacity [] .new (.new capacity) (.new capacity) (.new capacity) (.new capacity) :=
  ⟨sieveAgree_new capacity, SieveReplacer_v2.simulates_new fits, SieveReplacer_v3.simulates_new fits, rfl, rfl⟩

/-- An admissible call gets one answer from the three, and they keep agreeing. -/
theorem AllAgree.answer {a₂ : Gbp.SieveReplacer_v2} {a₃ : Gbp.SieveReplacer_v3}
    (all : AllAgree capacity tracked r₁ r₂ r₃ a₂ a₃) {call : PoolCall} (admissible : Admissible capacity tracked call) :
    ∃ a r₁' r₂' r₃' a₂' a₃', answer r₁ call = .ok (a, r₁') ∧ answer r₂ call = .ok (a, r₂') ∧
      answer r₃ call = .ok (a, r₃') ∧ AllAgree capacity (trackedAfter tracked call a) r₁' r₂' r₃' a₂' a₃' := by
  obtain ⟨agree, second, third, rfl, rfl⟩ := all
  have admits : a₃.Admissible call := by
    cases call <;> exact admissible
  obtain ⟨a, r₁', a₂', a₃', first, moved₂, moved₃, agree'⟩ := agree.answer admits
  obtain ⟨⟨a', r₂'⟩, ran₂, same₂, second'⟩ := (SieveReplacer_v2.corresponds.answer second call).left moved₂
  obtain ⟨⟨a'', r₃'⟩, ran₃, same₃, third'⟩ := (SieveReplacer_v3.corresponds.answer third call).left moved₃
  obtain rfl : a' = a := same₂
  obtain rfl : a'' = a' := same₃
  have shape := answer_shape agree.ready admits moved₃
  exact ⟨a'', r₁', r₂', r₃', a₂', a₃', first, ran₂, ran₃, agree', second', third', shape.1, shape.2⟩

private theorem answers_cons {R : Type} [Policy R] {r r' s : R} {call : PoolCall} {rest : List PoolCall}
    {a : Answer} {results : List Answer} (first : answer r call = .ok (a, r'))
    (others : answers r' rest = .ok (results, s)) : answers r (call :: rest) = .ok (a :: results, s) := by
  rw [answers, first, ok_bind]
  dsimp only
  rw [others]
  rfl

/-- For every sequence of admissible calls the three SIEVE replacers, started empty with the same capacity, return the
same results, the same victims and the same page tables. -/
theorem sieve_replacers_agree (fits : capacity < indexRange - 2) (calls : List PoolCall)
    (admits : Admits capacity (.new capacity) [] calls) : SameAnswers capacity calls := by
  have all := allAgree_new fits
  unfold SameAnswers
  generalize SieveReplacer.new = r₁, SieveReplacer_v2.new capacity = r₂, SieveReplacer_v3.new capacity = r₃,
    Gbp.SieveReplacer_v2.new capacity = a₂, Gbp.SieveReplacer_v3.new capacity = a₃, ([] : List ℕ) = tracked
    at all admits ⊢
  induction calls generalizing r₁ r₂ r₃ a₂ a₃ tracked with
  | nil => exact ⟨[], r₁, r₂, r₃, rfl, rfl, rfl⟩
  | cons call rest ih =>
    obtain ⟨a, r₁', r₂', r₃', a₂', a₃', first, second, third, all'⟩ := all.answer admits.1
    obtain ⟨results, s₁, s₂, s₃, ran₁, ran₂, ran₃⟩ := ih r₁' r₂' r₃' a₂' a₃' _ all' (admits.2 a r₃' third)
    exact ⟨a :: results, s₁, s₂, s₃, answers_cons first ran₁, answers_cons second ran₂, answers_cons third ran₃⟩

theorem sieve_replacers_agree_twoPages :
    SameAnswers 2 [.insert 0, .insert 1, .promote 0, .victim PageTable.twoPages] := by
  apply sieve_replacers_agree (by decide)
  refine ⟨⟨by decide, List.not_mem_nil⟩, ?_⟩
  rintro _ _ ⟨⟩
  refine ⟨⟨by decide, by decide⟩, ?_⟩
  rintro _ _ ⟨⟩
  refine ⟨show 0 ∈ [1, 0] by decide, ?_⟩
  rintro _ _ ⟨⟩
  exact ⟨⟨PageTable.twoPages_consistent, 0, by decide, by decide⟩, fun _ _ _ => trivial⟩

section limit

open PageTable (twoPages)
open Gbp.Indexed.SieveReplacer_v3 (oneInserted victim_first)

/-- A replacer of the largest size after `Insert(0)`, a `Victim` that takes frame 0, and `Insert(1)`. -/
def stillLinked : SieveReplacer_v3 :=
  let r := oneInserted (indexRange - 2)
  let r : SieveReplacer_v3 := ⟨(r.list.removeFromIndex 0).2, r.list.getPrevNodeIndex 0⟩
  { r with list := ((r.list.setValue 1 0).moveToFront 1).2 }

theorem stillLinked_ran (pt : PageTable) (evictable : pt.Evictable 0) :
    answer (oneInserted (indexRange - 2)) (.victim pt) = .ok (.victim (some 0) (pt.lockFrame (pt.ptes 0).page 0),
      ⟨((oneInserted (indexRange - 2)).list.removeFromIndex 0).2, ListArray.head (indexRange - 2)⟩) ∧
    ∃ r, answer stillLinked (.victim pt) = .ok (.victim (some 0) (pt.lockFrame (pt.ptes 0).page 0), r) := by
  have first := @victim_first 0 (oneInserted (indexRange - 2)) pt (by decide) (by decide) (by decide) (by decide) evictable
  have second := @victim_first 0 stillLinked pt (by decide) (by decide) (by decide) (by decide) evictable
  constructor
  · simp only [answer, Policy.victim, first]
    rfl
  · simp only [answer, Policy.victim, second]
    exact ⟨_, rfl⟩

/-- With `INVALID_INDEX` for the index of the tail, `SieveReplacer_v3` takes frame 0 again where `SieveReplacer` takes
frame 1. -/
theorem sieve_victims_differ : ¬ ∀ (capacity : ℕ) (calls : List PoolCall),
    Admits capacity (.new capacity) [] calls → SameAnswers capacity calls := by
  intro always
  have evictable : twoPages.Evictable 0 := by decide
  obtain ⟨taken, r, again⟩ := stillLinked_ran twoPages evictable
  have admits : Admits (indexRange - 2) (.new (indexRange - 2)) []
      [.insert 0, .victim twoPages, .insert 1, .victim twoPages] := by
    refine ⟨⟨by decide, List.not_mem_nil⟩, ?_⟩
    rintro _ _ ⟨⟩
    refine ⟨⟨⟨by decide, by decide, by decide⟩, 0, by decide, evictable⟩, fun a r' ran => ?_⟩
    cases taken.symm.trans ran
    refine ⟨⟨by decide, by decide⟩, ?_⟩
    rintro _ _ ⟨⟩
    exact ⟨⟨⟨by decide, by decide, by decide⟩, 1, by decide, by decide⟩, fun _ _ _ => trivial⟩
  obtain ⟨results, r₁, r₂, r₃, first, -, third⟩ := always _ _ admits
  have inserted : answer (SieveReplacer_v3.new (indexRange - 2)) (.insert 0) =
      .ok (.done true, oneInserted (indexRange - 2)) := rfl
  have linked : answer (⟨((oneInserted (indexRange - 2)).list.removeFromIndex 0).2, ListArray.head (indexRange - 2)⟩ :
      SieveReplacer_v3) (.insert 1) = .ok (.done true, stillLinked) := rfl
  have nothing : answers r [] = .ok ([], r) := rfl
  have ran := answers_cons inserted (answers_cons taken (answers_cons linked (answers_cons again nothing)))
  cases first
  cases ran.symm.trans third

end limit

end Indexed

end Gbp
