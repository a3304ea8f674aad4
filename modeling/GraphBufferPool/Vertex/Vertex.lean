import GraphBufferPool.Vertex.EdgeLock
import GraphBufferPool.Vertex.Layout

/-! # The edge lists of a vertex table

`Vertex` with its edge-list columns, run by one thread. Each of them has a CSR array, in which a running
cursor allocates a range for every vertex, and a `MutableAdjlist` in the row of the vertex. Arrays
store and return items as written, and offsets stay below 2^64.
-/

namespace Gbp

open Function

/-- An edge-list column: its family and `column_id_in_column_family`. -/
@[ext] structure Column where
  family : ℕ
  columnId : ℕ
deriving DecidableEq, Repr

/-- `Vertex`: the items of `property_buffer_` by family and offset, the cursor of every column and the items of
its CSR array by offset. -/
structure Vertex (E : Type) where
  families : List Family
  properties : ℕ → ℕ → MutableAdjlist
  csrFirst : Column → ℕ
  csrSize : Column → ℕ
  csr : Column → ℕ → E
  capacityInRow : ℕ

/-- The loop for the lock, alone: a free lock is taken by the first exchange and the second one ends the loop;
the loop does not wait for another lock. -/
def MutableAdjlist.acquire (item : MutableAdjlist) : MutableAdjlist :=
  if item.lock = 0 then { item with lock := 1 } else item

/-- Two ranges of a CSR array do not overlap. -/
def MutableAdjlist.Apart (first second : MutableAdjlist) : Prop :=
  first.startIdx + first.capacity ≤ second.startIdx ∨ second.startIdx + second.capacity ≤ first.startIdx

/-- An insertion by one thread, step by step. -/
theorem EdgeLock.insert_alone (item : MutableAdjlist) (count : ℕ) (room : item.size < item.capacity) :
    ∃ steps : List (ThreadStep Unit), (∀ a ∈ steps, a = ⟨(), count, false⟩) ∧
      steps.foldlM EdgeLock.step ⟨item, fun _ => .outside⟩ =
        .ok ⟨(item.acquire.fetchAdd count).2.unlock, fun _ => .outside⟩ := by
  by_cases free : item.lock = 0
  · refine ⟨List.replicate 6 ⟨(), count, false⟩, fun a member => List.eq_of_mem_replicate member, ?_⟩
    simp [List.replicate, EdgeLock.step, EdgeLock.advance, MutableAdjlist.compareExchangeWeak,
      MutableAdjlist.fetchAdd, MutableAdjlist.acquire, MutableAdjlist.unlock, free, Nat.not_le.mpr room]
  · refine ⟨List.replicate 5 ⟨(), count, false⟩, fun a member => List.eq_of_mem_replicate member, ?_⟩
    simp [List.replicate, EdgeLock.step, EdgeLock.advance, MutableAdjlist.compareExchangeWeak,
      MutableAdjlist.fetchAdd, MutableAdjlist.acquire, MutableAdjlist.unlock, free, Nat.not_le.mpr room]

namespace Vertex

variable {E : Type}

/-- A table after `Init`. -/
def new (families : List Family) (properties : ℕ → ℕ → MutableAdjlist) (csr : Column → ℕ → E) : Vertex E :=
  ⟨families, properties, fun _ => 0, fun _ => 0, csr, 0⟩

/-- One family with one column of edges without data. -/
def oneColumn : List Family := [⟨[.dynamicEdgeList .empty], by decide⟩]

/-- The family and the edges of an edge-list column. -/
def edge? (s : Vertex E) (c : Column) : Option (Family × EdgeType) :=
  match s.families[c.family]? with
  | none => none
  | some family =>
    match family.columns[c.columnId]? with
    | some (.dynamicEdgeList edge) => some (family, edge)
    | _ => none

/-- A store of an item. -/
def setItem (s : Vertex E) (family offset : ℕ) (item : MutableAdjlist) : Vertex E :=
  { s with properties := update s.properties family (update (s.properties family) offset item) }

/-- One round of `EdgeListInitBatch`. -/
def initEdgeList (s : Vertex E) (c : Column) (value : ℕ × ℕ) : Except Stop (Vertex E) :=
  match s.edge? c with
  | none => .error .badIndex
  | some (family, _) => do
    let offset ← family.getColumn value.1 c.columnId
    let item := s.properties c.family offset
    check (decide (item.startIdx = 0))
    check (decide (item.capacity = 0))
    check (decide (item.size = 0))
    return { s.setItem c.family offset
        { item with startIdx := s.csrFirst c, capacity := value.2 % 2 ^ 32, size := 0 } with
      csrFirst := update s.csrFirst c ((s.csrFirst c + value.2) % 2 ^ 64) }

/-- `EdgeListInitBatch`. -/
def edgeListInitBatch (s : Vertex E) (c : Column) (values : List (ℕ × ℕ)) : Except Stop (Vertex E) :=
  values.foldlM (fun s value => s.initEdgeList c value) s

/-- The calls of `set_single_obj` from the index `idx` on. -/
def storeEdges (size : ℕ) (csr : ℕ → E) (idx : ℕ) : List E → ℕ → E
  | [] => csr
  | edge :: rest => storeEdges size (update csr (fileOffset size (idx % 2 ^ 64)) edge) (idx + 1) rest

/-- What `InsertEdge` and `InsertEdgeList` have in common. -/
def insertEdges (s : Vertex E) (c : Column) (vertexId : ℕ) (edges : List E) : Except Stop (Vertex E) :=
  match s.edge? c with
  | none => .error .assertion
  | some (family, edge) => do
    let offset ← family.getColumn vertexId c.columnId
    let (idxNew, item) := (s.properties c.family offset).acquire.fetchAdd edges.length
    check (decide (idxNew < item.capacity))
    return { s.setItem c.family offset item.unlock with
      csr := update s.csr c (storeEdges edge.size (s.csr c) (idxNew + item.startIdx) edges) }

/-- `InsertEdge`. -/
def insertEdge (s : Vertex E) (c : Column) (vertexId : ℕ) (edge : E) : Except Stop (Vertex E) :=
  s.insertEdges c vertexId [edge]

/-- `InsertEdgeList`; it checks the place of its first edge only. -/
def insertEdgeList (s : Vertex E) (c : Column) (vertexId : ℕ) (edges : List E) : Except Stop (Vertex E) :=
  s.insertEdges c vertexId edges

/-- `ReadEdgeList`, with every edge of the block decoded. -/
def readEdgeList (s : Vertex E) (c : Column) (vertexId : ℕ) : Except Stop (List E) :=
  match s.edge? c with
  | none => .error .assertion
  | some (family, edge) => do
    let offset ← family.getColumn vertexId c.columnId
    let item := s.properties c.family offset
    let block := getItems edge.size item.startIdx item.size
    return (List.range item.size).map fun idx => s.csr c (block.decode edge.size idx)

/-- The descriptor `Resize` writes into a new row. -/
def resizeRow (s : Vertex E) (c : Column) (rowId : ℕ) : Except Stop (Vertex E) :=
  match s.edge? c with
  | none => .ok s
  | some (family, _) => do
    let offset ← family.getColumn rowId c.columnId
    let item := s.properties c.family offset
    return s.setItem c.family offset { item with capacity := 0, startIdx := s.csrFirst c, size := 0 }

/-- `column_to_column_familys_`. -/
def columns (s : Vertex E) : List Column :=
  (List.range s.families.length).flatMap fun family =>
    (List.range ((s.families[family]?.map fun f => f.columns.length).getD 0)).map fun id => ⟨family, id⟩

/-- `Resize`. -/
def resize (s : Vertex E) (newCapacityInRow : ℕ) : Except Stop (Vertex E) := do
  let rows := List.range' s.capacityInRow (newCapacityInRow - s.capacityInRow)
  let grown := { s with csrSize := fun _ => newCapacityInRow * 1024 % 2 ^ 64 }
  let s ← s.columns.foldlM (fun s c => rows.foldlM (fun s rowId => s.resizeRow c rowId) s) grown
  return { s with capacityInRow := newCapacityInRow }

/-- The item of a vertex in a column. -/
def item (s : Vertex E) (c : Column) (vertexId : ℕ) : MutableAdjlist :=
  match s.families[c.family]? with
  | none => .init 0 0 0
  | some family => s.properties c.family (family.place vertexId c.columnId)

/-- The column holds edge lists. -/
def IsEdgeList (s : Vertex E) (c : Column) : Prop := (s.edge? c).isSome = true

variable {s s' : Vertex E} {c c' : Column} {family : Family} {edge : EdgeType} {v v' : ℕ}

theorem edge?_eq_some_iff : s.edge? c = some (family, edge) ↔
    s.families[c.family]? = some family ∧ family.columns[c.columnId]? = some (.dynamicEdgeList edge) := by
  unfold edge?
  cases found : s.families[c.family]? with
  | none => exact iff_of_false nofun fun both => nomatch both.1
  | some known =>
    dsimp only
    constructor
    · intro same
      split at same
      · next type column =>
        cases same
        exact ⟨rfl, column⟩
      · cases same
    · rintro ⟨⟨rfl⟩, column⟩
      rw [column]

theorem exists_edge (list : s.IsEdgeList c) : ∃ family edge, s.edge? c = some (family, edge) := by
  obtain ⟨⟨family, edge⟩, found⟩ := Option.isSome_iff_exists.mp list
  exact ⟨family, edge, found⟩

theorem getColumn_of_edge (found : s.edge? c = some (family, edge)) (v : ℕ) :
    family.getColumn v c.columnId = .ok (family.place v c.columnId) :=
  Family.getColumn_eq (edge?_eq_some_iff.mp found).2 v

theorem item_of_edge (found : s.edge? c = some (family, edge)) (v : ℕ) :
    s.item c v = s.properties c.family (family.place v c.columnId) := by
  rw [item, (edge?_eq_some_iff.mp found).1]

@[simp] theorem setItem_families (family offset : ℕ) (item : MutableAdjlist) :
    (s.setItem family offset item).families = s.families := rfl

/-- A store changes the item it is meant for only. -/
theorem setItem_item (found : s.edge? c = some (family, edge)) (list : s.IsEdgeList c') (v v' : ℕ)
    (item : MutableAdjlist) : (s.setItem c.family (family.place v c.columnId) item).item c' v' =
      if c' = c ∧ v' = v then item else s.item c' v' := by
  obtain ⟨family', edge', found'⟩ := exists_edge list
  obtain ⟨here, column⟩ := edge?_eq_some_iff.mp found
  obtain ⟨there, column'⟩ := edge?_eq_some_iff.mp found'
  rw [item_of_edge found']
  have known : (s.setItem c.family (family.place v c.columnId) item).item c' v' =
      update s.properties c.family (update (s.properties c.family) (family.place v c.columnId) item)
        c'.family (family'.place v' c'.columnId) := by
    rw [Vertex.item, setItem_families, there]
    rfl
  rw [known]
  by_cases same : c'.family = c.family
  · rw [same, update_self]
    obtain rfl : family' = family := by
      rw [same, here] at there
      exact (Option.some.inj there).symm
    by_cases both : c' = c ∧ v' = v
    · obtain ⟨rfl, rfl⟩ := both
      rw [if_pos ⟨rfl, rfl⟩, update_self]
    · rw [if_neg both, update_of_ne]
      apply Family.place_ne column' column
      intro pair
      obtain ⟨rows, ids⟩ := Prod.mk.inj pair
      exact both ⟨Column.ext same ids, rows⟩
  · rw [update_of_ne same, if_neg]
    rintro ⟨rfl, _⟩
    exact same rfl

theorem isEdgeList_of_families (same : s'.families = s.families) : s'.IsEdgeList c ↔ s.IsEdgeList c := by
  simp only [IsEdgeList, edge?, same]

/-- A range was allocated for a vertex. -/
structure Initialized (s s' : Vertex E) (c : Column) (v cap : ℕ) : Prop where
  families : s'.families = s.families
  csr : s'.csr = s.csr
  csrSize : s'.csrSize = s.csrSize
  capacityInRow : s'.capacityInRow = s.capacityInRow
  csrFirst : s'.csrFirst = update s.csrFirst c ((s.csrFirst c + cap) % 2 ^ 64)
  item : ∀ c' v', s.IsEdgeList c' → s'.item c' v' = if c' = c ∧ v' = v then
    { s.item c v with startIdx := s.csrFirst c, capacity := cap % 2 ^ 32, size := 0 } else s.item c' v'

/-- What a batch does to one vertex: it asserts an empty descriptor and allocates a range. -/
theorem initEdgeList_spec (list : s.IsEdgeList c) (v cap : ℕ) :
    ((s.item c v).startIdx = 0 ∧ (s.item c v).capacity = 0 ∧ (s.item c v).size = 0 ∧
        ∃ s', s.initEdgeList c (v, cap) = .ok s' ∧ Initialized s s' c v cap) ∨
      ¬ ((s.item c v).startIdx = 0 ∧ (s.item c v).capacity = 0 ∧ (s.item c v).size = 0) ∧
        s.initEdgeList c (v, cap) = .error .assertion := by
  obtain ⟨family, edge, found⟩ := exists_edge list
  have ran : s.initEdgeList c (v, cap) = (do
      check (decide ((s.item c v).startIdx = 0))
      check (decide ((s.item c v).capacity = 0))
      check (decide ((s.item c v).size = 0))
      return { s.setItem c.family (family.place v c.columnId)
          { s.item c v with startIdx := s.csrFirst c, capacity := cap % 2 ^ 32, size := 0 } with
        csrFirst := update s.csrFirst c ((s.csrFirst c + cap) % 2 ^ 64) }) := by
    simp only [initEdgeList, found, getColumn_of_edge found, ok_bind, item_of_edge found]
  rw [ran]
  by_cases fresh : (s.item c v).startIdx = 0 ∧ (s.item c v).capacity = 0 ∧ (s.item c v).size = 0
  · obtain ⟨start, capacity, size⟩ := fresh
    refine Or.inl ⟨start, capacity, size, ?_⟩
    rw [decide_eq_true start, decide_eq_true capacity, decide_eq_true size]
    exact ⟨_, rfl, rfl, rfl, rfl, rfl, rfl, fun c' v' list' => setItem_item found list' v v' _⟩
  · refine Or.inr ⟨fresh, ?_⟩
    by_cases start : (s.item c v).startIdx = 0
    · by_cases capacity : (s.item c v).capacity = 0
      · have size : (s.item c v).size ≠ 0 := fun size => fresh ⟨start, capacity, size⟩
        rw [decide_eq_true start, decide_eq_true capacity, decide_eq_false size]
        rfl
      · rw [decide_eq_true start, decide_eq_false capacity]
        rfl
    · rw [decide_eq_false start]
      rfl

/-- The edges were stored in the CSR array and counted. -/
structure Inserted (s s' : Vertex E) (c : Column) (edge : EdgeType) (v : ℕ) (edges : List E) : Prop where
  families : s'.families = s.families
  csrFirst : s'.csrFirst = s.csrFirst
  csrSize : s'.csrSize = s.csrSize
  capacityInRow : s'.capacityInRow = s.capacityInRow
  csr : s'.csr = update s.csr c (storeEdges edge.size (s.csr c) ((s.item c v).size + (s.item c v).startIdx) edges)
  item : ∀ c' v', s.IsEdgeList c' → s'.item c' v' = if c' = c ∧ v' = v then
    { s.item c v with size := ((s.item c v).size + edges.length) % 2 ^ 32, lock := 0 } else s.item c' v'

/-- What an insertion does that returns. -/
theorem insertEdges_spec (found : s.edge? c = some (family, edge)) {edges : List E}
    (ran : s.insertEdges c v edges = .ok s') :
    (s.item c v).size < (s.item c v).capacity ∧ Inserted s s' c edge v edges := by
  simp only [insertEdges, found, getColumn_of_edge found, ok_bind, ← item_of_edge found] at ran
  have same : (s.item c v).acquire.size = (s.item c v).size ∧ (s.item c v).acquire.capacity = (s.item c v).capacity ∧
      (s.item c v).acquire.startIdx = (s.item c v).startIdx := by
    unfold MutableAdjlist.acquire
    split_ifs <;> exact ⟨rfl, rfl, rfl⟩
  simp only [MutableAdjlist.fetchAdd, MutableAdjlist.unlock, same] at ran
  by_cases room : (s.item c v).size < (s.item c v).capacity
  · rw [decide_eq_true room, check_true, ok_bind] at ran
    cases ran
    exact ⟨room, rfl, rfl, rfl, rfl, rfl, fun c' v' list' => setItem_item found list' v v' _⟩
  · rw [decide_eq_false room] at ran
    cases ran

/-- What `ReadEdgeList` returns: the items of the range that are in use. -/
theorem readEdgeList_eq (found : s.edge? c = some (family, edge)) (v : ℕ) :
    s.readEdgeList c v = .ok ((List.range (s.item c v).size).map fun idx =>
      s.csr c (fileOffset edge.size ((s.item c v).startIdx + idx))) := by
  simp only [readEdgeList, found, getColumn_of_edge found, ok_bind, ← item_of_edge found]
  refine congrArg Except.ok (List.map_congr_left fun idx member => ?_)
  rw [decode_getItems edge.size_pos edge.size_le (List.mem_range.mp member)]

/-- The descriptor of a new row. -/
def emptied (s : Vertex E) (c : Column) (item : MutableAdjlist) : MutableAdjlist :=
  { item with capacity := 0, startIdx := s.csrFirst c, size := 0 }

/-- The descriptors of some columns and rows were emptied, and nothing else changed. -/
structure Emptied (s s' : Vertex E) (cols : List Column) (rows : List ℕ) : Prop where
  families : s'.families = s.families
  csr : s'.csr = s.csr
  csrFirst : s'.csrFirst = s.csrFirst
  csrSize : s'.csrSize = s.csrSize
  capacityInRow : s'.capacityInRow = s.capacityInRow
  item : ∀ c v, s.IsEdgeList c →
    s'.item c v = if c ∈ cols ∧ v ∈ rows then s.emptied c (s.item c v) else s.item c v

theorem Emptied.refl (s : Vertex E) (rows : List ℕ) : Emptied s s [] rows :=
  ⟨rfl, rfl, rfl, rfl, rfl, fun _ _ _ => (if_neg fun both => nomatch both.1).symm⟩

theorem resizeRow_spec (s : Vertex E) (c : Column) (v : ℕ) :
    ∃ s', s.resizeRow c v = .ok s' ∧ Emptied s s' [c] [v] := by
  cases found : s.edge? c with
  | none =>
    refine ⟨s, by simp only [resizeRow, found], rfl, rfl, rfl, rfl, rfl, fun c' v' list => ?_⟩
    rw [if_neg]
    rintro ⟨member, _⟩
    obtain rfl := List.mem_singleton.mp member
    simp [IsEdgeList, found] at list
  | some both =>
    obtain ⟨family, edge⟩ := both
    refine ⟨s.setItem c.family (family.place v c.columnId) (s.emptied c (s.item c v)), ?_, rfl, rfl, rfl, rfl,
      rfl, fun c' v' list => ?_⟩
    · simp only [resizeRow, found, getColumn_of_edge found, ok_bind, item_of_edge found]
      rfl
    · rw [setItem_item found list]
      simp only [List.mem_singleton]
      split_ifs with here
      · obtain ⟨rfl, rfl⟩ := here
        rfl
      · rfl

/-- The rows of a column. -/
theorem resizeRows_spec (rows : List ℕ) (s : Vertex E) (c : Column) :
    ∃ s', rows.foldlM (fun s rowId => s.resizeRow c rowId) s = .ok s' ∧ Emptied s s' [c] rows := by
  induction rows generalizing s with
  | nil => exact ⟨s, rfl, rfl, rfl, rfl, rfl, rfl, fun _ _ _ => (if_neg fun both => nomatch both.2).symm⟩
  | cons v rest ih =>
    obtain ⟨next, first, here⟩ := resizeRow_spec s c v
    obtain ⟨s', later, there⟩ := ih next
    refine ⟨s', ?_, there.families.trans here.families, there.csr.trans here.csr,
      there.csrFirst.trans here.csrFirst, there.csrSize.trans here.csrSize,
      there.capacityInRow.trans here.capacityInRow, fun c' v' list => ?_⟩
    · rw [List.foldlM_cons, first]
      exact later
    · rw [there.item c' v' ((isEdgeList_of_families here.families).mpr list), here.item c' v' list]
      simp only [List.mem_cons, emptied, here.csrFirst]
      split_ifs <;> first | rfl | tauto

/-- The columns. -/
theorem resizeColumns_spec (cols : List Column) (rows : List ℕ) (s : Vertex E) :
    ∃ s', cols.foldlM (fun s c => rows.foldlM (fun s rowId => s.resizeRow c rowId) s) s = .ok s' ∧
      Emptied s s' cols rows := by
  induction cols generalizing s with
  | nil => exact ⟨s, rfl, Emptied.refl s rows⟩
  | cons c rest ih =>
    obtain ⟨next, first, here⟩ := resizeRows_spec rows s c
    obtain ⟨s', later, there⟩ := ih next
    refine ⟨s', ?_, there.families.trans here.families, there.csr.trans here.csr,
      there.csrFirst.trans here.csrFirst, there.csrSize.trans here.csrSize,
      there.capacityInRow.trans here.capacityInRow, fun c' v' list => ?_⟩
    · rw [List.foldlM_cons, first]
      exact later
    · rw [there.item c' v' ((isEdgeList_of_families here.families).mpr list), here.item c' v' list]
      simp only [List.mem_cons, emptied, here.csrFirst]
      split_ifs <;> first | rfl | tauto

theorem mem_columns (list : s.IsEdgeList c) : c ∈ s.columns := by
  obtain ⟨family, edge, found⟩ := exists_edge list
  obtain ⟨here, column⟩ := edge?_eq_some_iff.mp found
  rw [columns, List.mem_flatMap]
  refine ⟨c.family, List.mem_range.mpr (List.getElem?_eq_some_iff.mp here).1, List.mem_map.mpr ⟨c.columnId, ?_, rfl⟩⟩
  rw [here]
  exact List.mem_range.mpr (List.getElem?_eq_some_iff.mp column).1

/-- What `Resize` does: it empties the descriptors of the new rows. -/
structure Resized (s s' : Vertex E) (rows : ℕ) : Prop where
  families : s'.families = s.families
  csr : s'.csr = s.csr
  csrFirst : s'.csrFirst = s.csrFirst
  csrSize : ∀ c, s'.csrSize c = rows * 1024 % 2 ^ 64
  capacityInRow : s'.capacityInRow = rows
  item : ∀ c v, s.IsEdgeList c → s'.item c v =
    if s.capacityInRow ≤ v ∧ v < rows then s.emptied c (s.item c v) else s.item c v

theorem resize_spec (s : Vertex E) (rows : ℕ) : ∃ s', s.resize rows = .ok s' ∧ Resized s s' rows := by
  obtain ⟨next, ran, emptied⟩ := resizeColumns_spec s.columns
    (List.range' s.capacityInRow (rows - s.capacityInRow))
    { s with csrSize := fun _ => rows * 1024 % 2 ^ 64 }
  refine ⟨{ next with capacityInRow := rows }, ?_, emptied.families, emptied.csr, emptied.csrFirst,
    fun c => congrFun emptied.csrSize c, rfl, fun c v list => ?_⟩
  · simp only [resize, ran, ok_bind]
    rfl
  · have after : ({ next with capacityInRow := rows } : Vertex E).item c v = next.item c v := rfl
    rw [after, emptied.item c v list]
    have grown : ({ s with csrSize := fun _ => rows * 1024 % 2 ^ 64 } : Vertex E).item c v = s.item c v := rfl
    rw [grown]
    refine if_congr ?_ rfl rfl
    rw [List.mem_range'_1]
    constructor
    · rintro ⟨_, low, high⟩
      omega
    · rintro ⟨low, high⟩
      exact ⟨mem_columns list, low, by omega⟩

end Vertex

end Gbp
