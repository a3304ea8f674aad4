import GraphBufferPool.Lib.History
import GraphBufferPool.Vertex.Vertex

/-! # Growing a table with edge lists

Sequences of `Resize` and `EdgeListInitBatch`. A batch asserts a descriptor that starts at 0, while `Resize`
gives a new row the cursor of the column: a row that is created after the first capacity of a column was
requested cannot be initialised in that column.
-/

namespace Gbp.Vertex

open History

/-- A call that grows a table. -/
inductive GrowthCall
  | resize (newCapacityInRow : ℕ)
  | edgeListInitBatch (c : Column) (values : List (ℕ × ℕ))

/-- A `Resize`, or one round of a batch. -/
inductive GrowthOp
  | resize (newCapacityInRow : ℕ)
  | initEdgeList (c : Column) (vertexId capacity : ℕ)

variable {E : Type}

/-- The table after a call. -/
def growthCall (s : Vertex E) : GrowthCall → Except Stop (Vertex E)
  | .resize rows => s.resize rows
  | .edgeListInitBatch c values => s.edgeListInitBatch c values

/-- The table after a round. -/
def growthOp (s : Vertex E) : GrowthOp → Except Stop (Vertex E)
  | .resize rows => s.resize rows
  | .initEdgeList c v cap => s.initEdgeList c (v, cap)

/-- The rounds of a call. -/
def GrowthCall.ops : GrowthCall → List GrowthOp
  | .resize rows => [.resize rows]
  | .edgeListInitBatch c values => values.map fun value => .initEdgeList c value.1 value.2

/-- The rounds of a sequence of calls. -/
def ops (calls : List GrowthCall) : List GrowthOp := calls.flatMap GrowthCall.ops

/-- The rows after some rounds. -/
def rowsAfter (ops : List GrowthOp) : ℕ :=
  ops.foldl (fun rows op => match op with
    | .resize rows => rows
    | .initEdgeList _ _ _ => rows) 0

/-- The vertices initialised in a column, with the capacities requested for them. -/
def requests (c : Column) (ops : List GrowthOp) : List (ℕ × ℕ) :=
  ops.filterMap fun
    | .resize _ => none
    | .initEdgeList c' v cap => if c' = c then some (v, cap) else none

/-- The sum of the capacities of a column. -/
def requested (c : Column) (ops : List GrowthOp) : ℕ := ((requests c ops).map Prod.snd).sum

/-- Sizes do not decrease, and each row exists when it is initialised, once in each column. -/
def Allowed (start : Vertex E) (before : List GrowthOp) : GrowthOp → Prop
  | .resize rows => rowsAfter before ≤ rows
  | .initEdgeList c v _ =>
    start.IsEdgeList c ∧ v < rowsAfter before ∧ ∀ cap, (v, cap) ∉ requests c before

/-- The sequences of the table: allowed throughout, and the capacities of a column sum to at most the length
of its CSR array. -/
structure Grows (start : Vertex E) (ops : List GrowthOp) : Prop where
  allowed : Throughout (Allowed start) ops
  capacity : ∀ c, requested c ops ≤ rowsAfter ops * 1024 % 2 ^ 64

/-- The row was created while no capacity was requested in the column. -/
def CreatedEmpty (c : Column) (v : ℕ) : List GrowthOp → Prop :=
  Throughout fun before op => ∀ rows, op = .resize rows → rowsAfter before ≤ v → v < rows →
    requested c before = 0

/-- A round initialises such a row. -/
def InitsCreatedEmpty (before : List GrowthOp) : GrowthOp → Prop
  | .resize _ => True
  | .initEdgeList c v _ => CreatedEmpty c v before

/-- No assertion of a batch fails, the ranges of a column are disjoint and inside its CSR array, and a `Resize`
leaves those initialised before it alone. -/
structure Composes (start : Vertex E) (calls : List GrowthCall) : Prop where
  returns : ∃ s, calls.foldlM growthCall start = .ok s
  disjoint : ∀ s, calls.foldlM growthCall start = .ok s → ∀ c v v' cap cap', (v, cap) ∈ requests c (ops calls) →
    (v', cap') ∈ requests c (ops calls) → v ≠ v' →
      Disjoint (Set.Ico (s.item c v).startIdx ((s.item c v).startIdx + (s.item c v).capacity))
        (Set.Ico (s.item c v').startIdx ((s.item c v').startIdx + (s.item c v').capacity))
  inside : ∀ s, calls.foldlM growthCall start = .ok s → ∀ c v cap, (v, cap) ∈ requests c (ops calls) →
    (s.item c v).startIdx + (s.item c v).capacity ≤ s.csrSize c
  kept : ∀ before rows after s s', calls = before ++ .resize rows :: after →
    before.foldlM growthCall start = .ok s → s.resize rows = .ok s' → ∀ c v cap,
      (v, cap) ∈ requests c (ops before) → (s'.item c v).startIdx = (s.item c v).startIdx ∧
        (s'.item c v).capacity = (s.item c v).capacity

section history

variable {done : List GrowthOp} {op : GrowthOp} {c : Column} {v cap rows : ℕ}

@[simp] theorem rowsAfter_resize : rowsAfter (done ++ [.resize rows]) = rows := by
  simp [rowsAfter]

@[simp] theorem rowsAfter_init : rowsAfter (done ++ [.initEdgeList c v cap]) = rowsAfter done := by
  simp [rowsAfter]

@[simp] theorem requests_resize : requests c (done ++ [.resize rows]) = requests c done := by
  simp [requests]

theorem requests_init {c' : Column} : requests c' (done ++ [.initEdgeList c v cap]) =
    requests c' done ++ if c = c' then [(v, cap)] else [] := by
  rw [requests, List.filterMap_append]
  by_cases here : c = c' <;> simp [requests, here]

@[simp] theorem requested_resize : requested c (done ++ [.resize rows]) = requested c done := by
  simp [requested]

theorem requested_init {c' : Column} : requested c' (done ++ [.initEdgeList c v cap]) =
    requested c' done + if c = c' then cap else 0 := by
  rw [requested, requests_init]
  by_cases here : c = c' <;> simp [requested, here]

theorem requested_append (c : Column) (first second : List GrowthOp) :
    requested c (first ++ second) = requested c first + requested c second := by
  simp [requested, requests]

end history

/-- The calls and their rounds do the same. -/
theorem foldlM_ops (calls : List GrowthCall) (s : Vertex E) :
    calls.foldlM growthCall s = (ops calls).foldlM growthOp s := by
  induction calls generalizing s with
  | nil => rfl
  | cons call rest ih =>
    have first : growthCall s call = call.ops.foldlM growthOp s := by
      cases call with
      | resize rows =>
        rw [GrowthCall.ops, List.foldlM_cons]
        exact (bind_pure _).symm
      | edgeListInitBatch c values =>
        rw [GrowthCall.ops, List.foldlM_map]
        rfl
    rw [List.foldlM_cons, ops, List.flatMap_cons, List.foldlM_append, first]
    congr 1
    funext next
    exact ih next

/-- The table after some rounds. -/
structure Laid (start : Vertex E) (done : List GrowthOp) (s : Vertex E) : Prop where
  families : s.families = start.families
  rows : s.capacityInRow = rowsAfter done
  csrSize : ∀ c, s.csrSize c = rowsAfter done * 1024 % 2 ^ 64
  cursor : ∀ c, s.csrFirst c = requested c done
  past : ∀ c v, rowsAfter done ≤ v → CreatedEmpty c v done
  known : ∀ c v cap, (v, cap) ∈ requests c done → start.IsEdgeList c ∧ v < rowsAfter done
  fresh : ∀ c v, start.IsEdgeList c → v < rowsAfter done → (∀ cap, (v, cap) ∉ requests c done) →
    (s.item c v).capacity = 0 ∧ (s.item c v).size = 0 ∧ ((s.item c v).startIdx = 0 ↔ CreatedEmpty c v done)
  range : ∀ c v cap, (v, cap) ∈ requests c done →
    (s.item c v).startIdx + (s.item c v).capacity ≤ requested c done
  apart : ∀ c v v' cap cap', (v, cap) ∈ requests c done → (v', cap') ∈ requests c done → v ≠ v' →
    (s.item c v).Apart (s.item c v')

variable {start s s' : Vertex E} {done : List GrowthOp} {c : Column} {v cap rows : ℕ}

theorem createdEmpty_resize : CreatedEmpty c v (done ++ [.resize rows]) ↔
    CreatedEmpty c v done ∧ (rowsAfter done ≤ v → v < rows → requested c done = 0) := by
  rw [CreatedEmpty, throughout_snoc]
  refine and_congr_right fun _ => ⟨fun here => here rows rfl, fun here other same => ?_⟩
  cases same
  exact here

theorem createdEmpty_init {c' : Column} {v' : ℕ} :
    CreatedEmpty c v (done ++ [.initEdgeList c' v' cap]) ↔ CreatedEmpty c v done := by
  rw [CreatedEmpty, throughout_snoc]
  exact and_iff_left fun _ same => nomatch same

theorem laid_new (families : List Family) (properties : ℕ → ℕ → MutableAdjlist) (csr : Column → ℕ → E) :
    Laid (new families properties csr) [] (new families properties csr) where
  families := rfl
  rows := rfl
  csrSize _ := rfl
  cursor _ := rfl
  past _ _ _ := throughout_nil
  known := nofun
  fresh _ _ _ inside := absurd inside (Nat.not_lt_zero _)
  range := nofun
  apart := nofun

/-- `Resize` leaves the rows there are alone. -/
theorem Laid.kept (laid : Laid start done s) (resized : Resized s s' rows) (list : start.IsEdgeList c)
    (old : v < rowsAfter done) : s'.item c v = s.item c v := by
  rw [resized.item c v ((isEdgeList_of_families laid.families).mpr list), laid.rows, if_neg]
  exact fun new => Nat.not_le.mpr old new.1

/-- More rows. -/
theorem Laid.resize (laid : Laid start done s) (resized : Resized s s' rows)
    (grows : rowsAfter done ≤ rows) : Laid start (done ++ [.resize rows]) s' := by
  constructor
  · exact resized.families.trans laid.families
  · rw [resized.capacityInRow, rowsAfter_resize]
  · intro c
    rw [resized.csrSize, rowsAfter_resize]
  · intro c
    rw [resized.csrFirst, laid.cursor, requested_resize]
  · intro c v past
    rw [rowsAfter_resize] at past
    refine createdEmpty_resize.mpr ⟨laid.past c v (grows.trans past), fun _ inside => ?_⟩
    omega
  · intro c v cap member
    rw [requests_resize] at member
    obtain ⟨list, inside⟩ := laid.known c v cap member
    rw [rowsAfter_resize]
    exact ⟨list, inside.trans_le grows⟩
  · intro c v list inside unrequested
    rw [rowsAfter_resize] at inside
    rw [requests_resize] at unrequested
    rw [createdEmpty_resize]
    rcases Nat.lt_or_ge v (rowsAfter done) with old | new
    · obtain ⟨capacity, size, created⟩ := laid.fresh c v list old unrequested
      rw [laid.kept resized list old]
      refine ⟨capacity, size, created.trans (and_iff_left ?_).symm⟩
      intro past
      omega
    · -- a new row starts at the cursor
      have item := resized.item c v ((isEdgeList_of_families laid.families).mpr list)
      rw [laid.rows, if_pos ⟨new, inside⟩] at item
      rw [item]
      refine ⟨rfl, rfl, ?_⟩
      have cursor : (s.emptied c (s.item c v)).startIdx = requested c done := laid.cursor c
      rw [cursor]
      exact ⟨fun zero => ⟨laid.past c v new, fun _ _ => zero⟩, fun both => both.2 new inside⟩
  · intro c v cap member
    rw [requests_resize] at member
    obtain ⟨list, inside⟩ := laid.known c v cap member
    rw [laid.kept resized list inside, requested_resize]
    exact laid.range c v cap member
  · intro c v v' cap cap' first second other
    rw [requests_resize] at first second
    obtain ⟨list, inside⟩ := laid.known c v cap first
    obtain ⟨_, inside'⟩ := laid.known c v' cap' second
    rw [laid.kept resized list inside, laid.kept resized list inside']
    exact laid.apart c v v' cap cap' first second other

/-- One more range. -/
theorem Laid.init (laid : Laid start done s) (list : start.IsEdgeList c) (inside : v < rowsAfter done)
    (once : ∀ cap, (v, cap) ∉ requests c done) (initialized : Initialized s s' c v cap)
    (room : requested c done + cap < 2 ^ 64) : Laid start (done ++ [.initEdgeList c v cap]) s' := by
  have here : s'.item c v =
      { s.item c v with startIdx := requested c done, capacity := cap % 2 ^ 32, size := 0 } := by
    rw [initialized.item c v ((isEdgeList_of_families laid.families).mpr list), if_pos ⟨rfl, rfl⟩, laid.cursor]
  have others {c' : Column} {v' : ℕ} (list' : start.IsEdgeList c') (other : ¬ (c' = c ∧ v' = v)) :
      s'.item c' v' = s.item c' v' := by
    rw [initialized.item c' v' ((isEdgeList_of_families laid.families).mpr list'), if_neg other]
  have members {c' : Column} {v' cap' : ℕ} :
      (v', cap') ∈ requests c' (done ++ [.initEdgeList c v cap]) ↔
        (v', cap') ∈ requests c' done ∨ c = c' ∧ v' = v ∧ cap' = cap := by
    rw [requests_init, List.mem_append]
    by_cases same : c = c' <;> simp [same]
  have earlier {c' : Column} {v' cap' : ℕ} (member : (v', cap') ∈ requests c' done) :
      s'.item c' v' = s.item c' v' := by
    refine others (laid.known c' v' cap' member).1 ?_
    rintro ⟨rfl, rfl⟩
    exact once cap' member
  have short : cap % 2 ^ 32 ≤ cap := Nat.mod_le ..
  constructor
  · exact initialized.families.trans laid.families
  · rw [initialized.capacityInRow, laid.rows, rowsAfter_init]
  · intro c'
    rw [initialized.csrSize, laid.csrSize, rowsAfter_init]
  · intro c'
    rw [initialized.csrFirst, requested_init, laid.cursor]
    by_cases same : c' = c
    · subst same
      rw [Function.update_self, if_pos rfl, Nat.mod_eq_of_lt room]
    · rw [Function.update_of_ne same, if_neg (Ne.symm same), laid.cursor, Nat.add_zero]
  · intro c' v' past
    rw [rowsAfter_init] at past
    exact createdEmpty_init.mpr (laid.past c' v' past)
  · intro c' v' cap' member
    rw [rowsAfter_init]
    rcases members.mp member with old | ⟨rfl, rfl, rfl⟩
    · exact laid.known c' v' cap' old
    · exact ⟨list, inside⟩
  · intro c' v' list' inside' unrequested
    rw [rowsAfter_init] at inside'
    have old : ∀ cap', (v', cap') ∉ requests c' done := fun cap' member =>
      unrequested cap' (members.mpr (Or.inl member))
    have other : ¬ (c' = c ∧ v' = v) := by
      rintro ⟨rfl, rfl⟩
      exact unrequested cap (members.mpr (Or.inr ⟨rfl, rfl, rfl⟩))
    rw [others list' other, createdEmpty_init]
    exact laid.fresh c' v' list' inside' old
  · intro c' v' cap' member
    rw [requested_init]
    rcases members.mp member with old | ⟨rfl, rfl, rfl⟩
    · rw [earlier old]
      exact (laid.range c' v' cap' old).trans (Nat.le_add_right ..)
    · rw [here, if_pos rfl]
      exact Nat.add_le_add_left short _
  · intro c' v₁ v₂ cap₁ cap₂ first second other
    rcases members.mp first with old₁ | ⟨rfl, rfl, rfl⟩
    · rcases members.mp second with old₂ | ⟨rfl, rfl, rfl⟩
      · rw [earlier old₁, earlier old₂]
        exact laid.apart c' v₁ v₂ cap₁ cap₂ old₁ old₂ other
      · rw [earlier old₁, here]
        exact Or.inl (laid.range _ v₁ cap₁ old₁)
    · rcases members.mp second with old₂ | ⟨_, same, _⟩
      · rw [earlier old₂, here]
        exact Or.inr (laid.range _ v₂ cap₂ old₂)
      · exact absurd same.symm other

/-- One round returns exactly if it initialises a row that was created empty. -/
theorem Laid.step (laid : Laid start done s) {op : GrowthOp} (allowed : Allowed start done op)
    (room : ∀ c, requested c (done ++ [op]) < 2 ^ 64) :
    (InitsCreatedEmpty done op ∧ ∃ s', s.growthOp op = .ok s' ∧ Laid start (done ++ [op]) s') ∨
      ¬ InitsCreatedEmpty done op ∧ ∃ stop, s.growthOp op = .error stop := by
  cases op with
  | resize rows =>
    obtain ⟨s', ran, resized⟩ := resize_spec s rows
    exact Or.inl ⟨trivial, s', ran, laid.resize resized allowed⟩
  | initEdgeList c v cap =>
    obtain ⟨list, inside, once⟩ := allowed
    obtain ⟨capacity, size, created⟩ := laid.fresh c v list inside once
    have fits := room c
    rw [requested_init, if_pos rfl] at fits
    rcases initEdgeList_spec ((isEdgeList_of_families laid.families).mpr list) v cap with
      ⟨zero, _, _, s', ran, initialized⟩ | ⟨refused, failed⟩
    · exact Or.inl ⟨created.mp zero, s', ran, laid.init list inside once initialized fits⟩
    · exact Or.inr ⟨fun empty => refused ⟨created.mpr empty, capacity, size⟩, _, failed⟩

/-- A sequence of the table returns exactly if every row was created empty in the columns it is initialised
in. -/
theorem Grows.run {calls : List GrowthOp} (laid : Laid start [] start)
    (allowed : Throughout (Allowed start) calls) (room : ∀ c, requested c calls < 2 ^ 64) :
    (Throughout InitsCreatedEmpty calls ∧ ∃ s, calls.foldlM growthOp start = .ok s ∧ Laid start calls s) ∨
      ¬ Throughout InitsCreatedEmpty calls ∧ ∃ stop, calls.foldlM growthOp start = .error stop := by
  have both : Throughout (fun before op => Allowed start before op ∧
      ∀ c, requested c (before ++ [op]) < 2 ^ 64) calls := by
    intro before op after same
    refine ⟨allowed before op after same, fun c => ?_⟩
    have whole : requested c calls = requested c (before ++ [op]) + requested c after := by
      rw [← requested_append, same, List.append_assoc, List.singleton_append]
    have := room c
    omega
  exact run_or_stop laid (fun _ _ _ laid fine => laid.step fine.1 fine.2) both

/-- Growing composes with initialising edge lists if and only if every row that is initialised in a column was
created while no capacity was requested in it. -/
theorem growth_composes_iff (families : List Family) (properties : ℕ → ℕ → MutableAdjlist)
    (csr : Column → ℕ → E) (calls : List GrowthCall) (grows : Grows (new families properties csr) (ops calls)) :
    Composes (new families properties csr) calls ↔ Throughout InitsCreatedEmpty (ops calls) := by
  have laid := laid_new families properties csr
  have small : rowsAfter (ops calls) * 1024 % 2 ^ 64 < 2 ^ 64 := Nat.mod_lt _ (by decide)
  have room (c : Column) : requested c (ops calls) < 2 ^ 64 := (grows.capacity c).trans_lt small
  rcases Grows.run laid grows.allowed room with ⟨met, s, ran, final⟩ | ⟨broken, stop, failed⟩
  · refine iff_of_true ⟨⟨s, (foldlM_ops calls _).trans ran⟩, ?_, ?_, ?_⟩ met
    · intro s' ran' c v v' cap cap' first second other
      obtain rfl : s' = s := Except.ok.inj ((ran'.symm.trans (foldlM_ops calls _)).trans ran)
      rw [Set.Ico_disjoint_Ico]
      rcases final.apart c v v' cap cap' first second other with before | after
      · exact (min_le_left ..).trans (before.trans (le_max_right ..))
      · exact (min_le_right ..).trans (after.trans (le_max_left ..))
    · intro s' ran' c v cap member
      obtain rfl : s' = s := Except.ok.inj ((ran'.symm.trans (foldlM_ops calls _)).trans ran)
      rw [final.csrSize]
      exact (final.range c v cap member).trans (grows.capacity c)
    · intro before rows after earlier later split ranBefore resized c v cap member
      have split' : ops calls = ops before ++ .resize rows :: ops after := by
        simp [split, ops, GrowthCall.ops]
      have fits (c : Column) : requested c (ops before) < 2 ^ 64 := by
        have whole := room c
        rw [split', requested_append] at whole
        omega
      rcases Grows.run laid (split' ▸ grows.allowed).left fits with ⟨_, s₁, ran₁, laid₁⟩ | ⟨_, stop, failed⟩
      · obtain rfl : earlier = s₁ :=
          Except.ok.inj ((ranBefore.symm.trans (foldlM_ops before _)).trans ran₁)
        obtain ⟨next, moved, shape⟩ := resize_spec earlier rows
        obtain rfl : later = next := Except.ok.inj (resized.symm.trans moved)
        obtain ⟨list, inside⟩ := laid₁.known c v cap member
        rw [laid₁.kept shape list inside]
        exact ⟨rfl, rfl⟩
      · rw [foldlM_ops, failed] at ranBefore
        cases ranBefore
  · refine iff_of_false ?_ broken
    intro composes
    obtain ⟨s, ran⟩ := composes.returns
    rw [foldlM_ops, failed] at ran
    cases ran

/-- A table with one edge-list column on new files. -/
def oneList : Vertex Unit := new oneColumn (fun _ _ => .init 0 0 0) fun _ _ => ()

/-- Two rows, their ranges, and two more rows. -/
def grownAfter : List GrowthCall :=
  [.resize 2, .edgeListInitBatch ⟨0, 0⟩ [(0, 1), (1, 1)], .resize 4]

/-- A row, its range, a second row and the range of that one. -/
def grownBetween : List GrowthCall :=
  [.resize 1, .edgeListInitBatch ⟨0, 0⟩ [(0, 1)], .resize 2, .edgeListInitBatch ⟨0, 0⟩ [(1, 1)]]

private theorem requested_le (c : Column) (done : List GrowthOp) : requested c done ≤
    (done.map fun
      | .resize _ => 0
      | .initEdgeList _ _ cap => cap).sum := by
  induction done using List.reverseRecOn with
  | nil => exact Nat.le_refl _
  | append_singleton done op ih =>
    rw [List.map_append, List.sum_append]
    cases op with
    | resize rows =>
      rw [requested_resize]
      exact ih.trans (Nat.le_add_right ..)
    | initEdgeList c' v cap =>
      rw [requested_init]
      refine Nat.add_le_add ih ?_
      split_ifs
      · simp
      · exact Nat.zero_le _

theorem grows_grownAfter : Grows oneList (ops grownAfter) where
  allowed := by
    have all : Throughout (Allowed oneList) (((([] ++ [.resize 2]) ++ [.initEdgeList ⟨0, 0⟩ 0 1]) ++
        [.initEdgeList ⟨0, 0⟩ 1 1]) ++ [.resize 4]) := by
      simp only [throughout_snoc]
      exact ⟨⟨⟨⟨throughout_nil, Nat.zero_le _⟩, rfl, by decide, by simp [requests]⟩, rfl, by decide,
        by simp [requests]⟩, Nat.le_of_ble_eq_true rfl⟩
    exact all
  capacity c := (requested_le c _).trans (by decide)

theorem growth_composes_grownAfter : Composes oneList grownAfter := by
  refine (growth_composes_iff oneColumn _ _ grownAfter grows_grownAfter).mpr ?_
  have all : Throughout InitsCreatedEmpty (((([] ++ [.resize 2]) ++ [.initEdgeList ⟨0, 0⟩ 0 1]) ++
      [.initEdgeList ⟨0, 0⟩ 1 1]) ++ [.resize 4]) := by
    have empty (v : ℕ) : CreatedEmpty ⟨0, 0⟩ v ([] ++ [.resize 2]) :=
      createdEmpty_resize.mpr ⟨throughout_nil, fun _ _ => rfl⟩
    simp only [throughout_snoc]
    exact ⟨⟨⟨⟨throughout_nil, trivial⟩, empty 0⟩, createdEmpty_init.mpr (empty 1)⟩, trivial⟩
  exact all

/-- The descriptor of the second row starts at the cursor, which the batch asserts to be 0. -/
theorem growth_not_composes : ¬ ∀ calls, Grows oneList (ops calls) → Composes oneList calls := by
  intro all
  have grows : Grows oneList (ops grownBetween) := by
    refine ⟨?_, fun c => (requested_le c _).trans (by decide)⟩
    have allowed : Throughout (Allowed oneList) (((([] ++ [.resize 1]) ++ [.initEdgeList ⟨0, 0⟩ 0 1]) ++
        [.resize 2]) ++ [.initEdgeList ⟨0, 0⟩ 1 1]) := by
      simp only [throughout_snoc]
      exact ⟨⟨⟨⟨throughout_nil, Nat.zero_le _⟩, rfl, by decide, by simp [requests]⟩, Nat.le_of_ble_eq_true rfl⟩,
        rfl, by decide, by simp [requests]⟩
    exact allowed
  obtain ⟨s, ran⟩ := (all grownBetween grows).returns
  have failed : grownBetween.foldlM growthCall oneList = .error .assertion := rfl
  rw [failed] at ran
  cases ran

end Gbp.Vertex
