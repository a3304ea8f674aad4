import GraphBufferPool.Lib.Runs
import GraphBufferPool.Vertex.Vertex

/-! # Edge lists of different vertices

Runs of `EdgeListInitBatch`, `InsertEdge` and `InsertEdgeList`. The ranges of a column are disjoint, so
the list of a vertex holds what was inserted for it as long as every insertion stays in its range.
`InsertEdge` asserts that; `InsertEdgeList` asserts it for its first edge only.
-/

namespace Gbp.Vertex

open Function

/-- A call on the edge lists of a table. -/
inductive EdgeCall (E : Type)
  | edgeListInitBatch (c : Column) (values : List (ℕ × ℕ))
  | insertEdge (c : Column) (vertexId : ℕ) (edge : E)
  | insertEdgeList (c : Column) (vertexId : ℕ) (edges : List E)

variable {E : Type}

/-- The table after a call. -/
def edgeCall (s : Vertex E) : EdgeCall E → Except Stop (Vertex E)
  | .edgeListInitBatch c values => s.edgeListInitBatch c values
  | .insertEdge c v edge => s.insertEdge c v edge
  | .insertEdgeList c v edges => s.insertEdgeList c v edges

/-- The edges a call inserts for a vertex. -/
def EdgeCall.inserts (c : Column) (v : ℕ) : EdgeCall E → List E
  | .edgeListInitBatch _ _ => []
  | .insertEdge c' v' edge => if c' = c ∧ v' = v then [edge] else []
  | .insertEdgeList c' v' edges => if c' = c ∧ v' = v then edges else []

/-- The edges that calls insert for a vertex, in order. -/
def inserted (calls : List (EdgeCall E)) (c : Column) (v : ℕ) : List E := calls.flatMap (EdgeCall.inserts c v)

/-- A list of edges fits in what is left of the range, and the capacities of a batch do not overflow the
cursor. -/
def Fits (s : Vertex E) : EdgeCall E → Prop
  | .edgeListInitBatch c values => s.csrFirst c + (values.map Prod.snd).sum < 2 ^ 64
  | .insertEdge _ _ _ => True
  | .insertEdgeList c v edges => (s.item c v).size + edges.length ≤ (s.item c v).capacity

/-- A table on new files, with that many rows. -/
def blank (families : List Family) (csr : Column → ℕ → E) (rows : ℕ) : Vertex E :=
  { new families (fun _ _ => .init 0 0 0) csr with capacityInRow := rows }

/-- The ranges in use are disjoint and lie before the cursor, and each holds the edges of its vertex. -/
structure Isolated (edges : Column → ℕ → List E) (s : Vertex E) : Prop where
  cursor : ∀ c, s.csrFirst c < 2 ^ 64
  within : ∀ c v, s.IsEdgeList c → (s.item c v).startIdx + (s.item c v).capacity ≤ s.csrFirst c
  small : ∀ c v, s.IsEdgeList c → (s.item c v).capacity < 2 ^ 32
  used : ∀ c v, s.IsEdgeList c → (s.item c v).size ≤ (s.item c v).capacity
  apart : ∀ c v v', s.IsEdgeList c → v ≠ v' → 0 < (s.item c v).capacity → 0 < (s.item c v').capacity →
    (s.item c v).Apart (s.item c v')
  stored : ∀ c v family edge, s.edge? c = some (family, edge) →
    ((List.range (s.item c v).size).map fun idx =>
      s.csr c (fileOffset edge.size ((s.item c v).startIdx + idx))) = edges c v

variable {s s' : Vertex E} {c c' : Column} {v : ℕ} {edges : Column → ℕ → List E}

section stores

variable {size idx i : ℕ} (positive : 0 < size) (fits : size ≤ pageSize)

include positive fits

/-- A store leaves the items outside its indices alone. -/
theorem storeEdges_outside (list : List E) (csr : ℕ → E) (small : idx + list.length ≤ 2 ^ 64)
    (outside : i < idx ∨ idx + list.length ≤ i) :
    storeEdges size csr idx list (fileOffset size i) = csr (fileOffset size i) := by
  induction list generalizing csr idx with
  | nil => rfl
  | cons edge rest ih =>
    rw [List.length_cons] at small outside
    rw [storeEdges, ih _ (by omega) (by omega), Nat.mod_eq_of_lt (by omega), update_of_ne]
    intro same
    have := fileOffset_injective positive fits same
    omega

/-- The stored edges are found in order. -/
theorem map_storeEdges (list : List E) (csr : ℕ → E) (small : idx + list.length ≤ 2 ^ 64) :
    ((List.range list.length).map fun k => storeEdges size csr idx list (fileOffset size (idx + k))) =
      list := by
  induction list generalizing csr idx with
  | nil => rfl
  | cons edge rest ih =>
    rw [List.length_cons] at small
    have first : storeEdges size csr idx (edge :: rest) (fileOffset size (idx + 0)) = edge := by
      rw [storeEdges, storeEdges_outside positive fits rest _ (by omega) (Or.inl (by omega)),
        Nat.mod_eq_of_lt (by omega), Nat.add_zero, update_self]
    have later := ih (update csr (fileOffset size (idx % 2 ^ 64)) edge) (show idx + 1 + rest.length ≤ 2 ^ 64 by omega)
    rw [List.length_cons, List.range_succ_eq_map, List.map_cons, first, List.map_map]
    refine congrArg (edge :: ·) (Eq.trans ?_ later)
    refine List.map_congr_left fun k _ => ?_
    rw [comp_apply, storeEdges, Nat.add_right_comm]
    rfl

/-- A list stored behind the items in use extends them. -/
theorem map_storeEdges_append (list : List E) (csr : ℕ → E) {start used : ℕ}
    (small : start + used + list.length ≤ 2 ^ 64) :
    ((List.range (used + list.length)).map fun k =>
        storeEdges size csr (used + start) list (fileOffset size (start + k))) =
      ((List.range used).map fun k => csr (fileOffset size (start + k))) ++ list := by
  rw [List.range_add, List.map_append, List.map_map]
  congr 1
  · refine List.map_congr_left fun k member => ?_
    have := List.mem_range.mp member
    exact storeEdges_outside positive fits list csr (by omega) (Or.inl (by omega))
  · have stored : ((List.range list.length).map fun k =>
        storeEdges size csr (used + start) list (fileOffset size (used + start + k))) = list :=
      map_storeEdges positive fits list csr (by omega)
    refine Eq.trans (List.map_congr_left fun k _ => ?_) stored
    rw [comp_apply, ← Nat.add_assoc, Nat.add_comm used]

end stores

theorem edge?_of_families (same : s'.families = s.families) (c : Column) : s'.edge? c = s.edge? c := by
  simp only [edge?, same]

/-- A new range, behind the cursor. -/
theorem Isolated.init (isolated : Isolated edges s) (list : s.IsEdgeList c) {v cap : ℕ}
    (room : s.csrFirst c + cap < 2 ^ 64) (done : Initialized s s' c v cap) (size : (s.item c v).size = 0) :
    Isolated edges s' := by
  have first : s'.csrFirst c = s.csrFirst c + cap := by
    rw [done.csrFirst, update_self, Nat.mod_eq_of_lt room]
  have others {c' : Column} (other : c' ≠ c) : s'.csrFirst c' = s.csrFirst c' := by
    rw [done.csrFirst, update_of_ne other]
  have grows (c' : Column) : s.csrFirst c' ≤ s'.csrFirst c' := by
    by_cases here : c' = c
    · rw [here, first]
      omega
    · exact (others here).ge
  have new : s'.item c v =
      { s.item c v with startIdx := s.csrFirst c, capacity := cap % 2 ^ 32, size := 0 } := by
    rw [done.item c v list, if_pos ⟨rfl, rfl⟩]
  have old {c' : Column} {v' : ℕ} (list' : s.IsEdgeList c') (other : ¬ (c' = c ∧ v' = v)) :
      s'.item c' v' = s.item c' v' := by
    rw [done.item c' v' list', if_neg other]
  have short : cap % 2 ^ 32 ≤ cap := Nat.mod_le ..
  have back {c' : Column} (list' : s'.IsEdgeList c') : s.IsEdgeList c' :=
    (isEdgeList_of_families done.families).mp list'
  constructor
  · intro c'
    by_cases here : c' = c
    · rw [here, first]
      exact room
    · rw [others here]
      exact isolated.cursor c'
  · intro c' v' list'
    by_cases here : c' = c ∧ v' = v
    · obtain ⟨rfl, rfl⟩ := here
      rw [new, first]
      exact Nat.add_le_add_left short _
    · rw [old (back list') here]
      exact (isolated.within c' v' (back list')).trans (grows c')
  · intro c' v' list'
    by_cases here : c' = c ∧ v' = v
    · obtain ⟨rfl, rfl⟩ := here
      rw [new]
      exact Nat.mod_lt _ (by decide)
    · rw [old (back list') here]
      exact isolated.small c' v' (back list')
  · intro c' v' list'
    by_cases here : c' = c ∧ v' = v
    · obtain ⟨rfl, rfl⟩ := here
      rw [new]
      exact Nat.zero_le _
    · rw [old (back list') here]
      exact isolated.used c' v' (back list')
  · intro c' v₁ v₂ list' other
    -- the new range starts where all the others have ended
    by_cases here : c' = c ∧ v₁ = v
    · obtain ⟨rfl, rfl⟩ := here
      rw [new, old list fun there => other there.2.symm]
      exact fun _ _ => Or.inr (isolated.within _ v₂ list)
    · by_cases there : c' = c ∧ v₂ = v
      · obtain ⟨rfl, rfl⟩ := there
        rw [new, old list here]
        exact fun _ _ => Or.inl (isolated.within _ v₁ list)
      · rw [old (back list') here, old (back list') there]
        exact isolated.apart c' v₁ v₂ (back list') other
  · intro c' v' family edge found
    rw [edge?_of_families done.families] at found
    have list' : s.IsEdgeList c' := Option.isSome_iff_exists.mpr ⟨_, found⟩
    by_cases here : c' = c ∧ v' = v
    · obtain ⟨rfl, rfl⟩ := here
      have empty := isolated.stored c' v' family edge found
      rw [size] at empty
      rw [new, ← empty]
      rfl
    · rw [old list' here, done.csr]
      exact isolated.stored c' v' family edge found

/-- Edges for one vertex that stay in its range. -/
theorem Isolated.insert (isolated : Isolated edges s) {family : Family} {edge : EdgeType}
    (found : s.edge? c = some (family, edge)) {v : ℕ} {new : List E} (done : Inserted s s' c edge v new)
    (room : (s.item c v).size < (s.item c v).capacity)
    (fits : (s.item c v).size + new.length ≤ (s.item c v).capacity) :
    Isolated (fun c' v' => edges c' v' ++ if c = c' ∧ v = v' then new else []) s' := by
  have list : s.IsEdgeList c := Option.isSome_iff_exists.mpr ⟨_, found⟩
  have small := isolated.small c v list
  have within := isolated.within c v list
  have cursor := isolated.cursor c
  have back {c' : Column} (list' : s'.IsEdgeList c') : s.IsEdgeList c' :=
    (isEdgeList_of_families done.families).mp list'
  have here : s'.item c v = { s.item c v with size := (s.item c v).size + new.length, lock := 0 } := by
    rw [done.item c v list, if_pos ⟨rfl, rfl⟩, Nat.mod_eq_of_lt (by omega)]
  have old {c' : Column} {v' : ℕ} (list' : s.IsEdgeList c') (other : ¬ (c' = c ∧ v' = v)) :
      s'.item c' v' = s.item c' v' := by
    rw [done.item c' v' list', if_neg other]
  have range (c' : Column) (v' : ℕ) (list' : s.IsEdgeList c') :
      (s'.item c' v').startIdx = (s.item c' v').startIdx ∧
        (s'.item c' v').capacity = (s.item c' v').capacity := by
    by_cases same : c' = c ∧ v' = v
    · obtain ⟨rfl, rfl⟩ := same
      rw [here]
      exact ⟨rfl, rfl⟩
    · rw [old list' same]
      exact ⟨rfl, rfl⟩
  constructor
  · rw [done.csrFirst]
    exact isolated.cursor
  · intro c' v' list'
    obtain ⟨start, capacity⟩ := range c' v' (back list')
    rw [start, capacity, done.csrFirst]
    exact isolated.within c' v' (back list')
  · intro c' v' list'
    rw [(range c' v' (back list')).2]
    exact isolated.small c' v' (back list')
  · intro c' v' list'
    by_cases same : c' = c ∧ v' = v
    · obtain ⟨rfl, rfl⟩ := same
      rw [here]
      exact fits
    · rw [old (back list') same]
      exact isolated.used c' v' (back list')
  · intro c' v₁ v₂ list' other
    obtain ⟨start₁, capacity₁⟩ := range c' v₁ (back list')
    obtain ⟨start₂, capacity₂⟩ := range c' v₂ (back list')
    rw [MutableAdjlist.Apart, start₁, capacity₁, start₂, capacity₂]
    exact isolated.apart c' v₁ v₂ (back list') other
  · intro c' v' family' edge' found'
    rw [edge?_of_families done.families] at found'
    have list' : s.IsEdgeList c' := Option.isSome_iff_exists.mpr ⟨_, found'⟩
    have earlier := isolated.stored c' v' family' edge' found'
    rw [done.csr]
    by_cases column : c' = c
    · subst column
      cases found.symm.trans found'
      rw [update_self]
      by_cases vertex : v' = v
      · subst vertex
        rw [here, if_pos ⟨rfl, rfl⟩, ← earlier]
        exact map_storeEdges_append edge.size_pos edge.size_le new _ (by omega)
      · rw [old list' fun both => vertex both.2, if_neg fun both => vertex both.2.symm, List.append_nil,
          ← earlier]
        refine List.map_congr_left fun k member => ?_
        have inside := List.mem_range.mp member
        have used := isolated.used c' v' list'
        have apart := isolated.apart c' v v' list' (Ne.symm vertex) (by omega) (by omega)
        refine storeEdges_outside edge.size_pos edge.size_le new _ (by omega) ?_
        rcases apart with before | after
        · exact Or.inr (by omega)
        · exact Or.inl (by omega)
    · rw [old list' fun both => column both.1, update_of_ne column, if_neg fun both => column both.1.symm,
        List.append_nil]
      exact earlier

/-- A batch of ranges. -/
theorem Isolated.batch (isolated : Isolated edges s) (list : s.IsEdgeList c) {values : List (ℕ × ℕ)}
    (room : s.csrFirst c + (values.map Prod.snd).sum < 2 ^ 64)
    (ran : s.edgeListInitBatch c values = .ok s') : Isolated edges s' ∧ s'.families = s.families := by
  induction values generalizing s with
  | nil =>
    cases ran
    exact ⟨isolated, rfl⟩
  | cons value rest ih =>
    obtain ⟨v, cap⟩ := value
    rw [List.map_cons, List.sum_cons] at room
    rw [edgeListInitBatch, List.foldlM_cons] at ran
    rcases initEdgeList_spec list v cap with ⟨_, _, size, next, first, done⟩ | ⟨_, failed⟩
    · rw [first, ok_bind] at ran
      have cursor : next.csrFirst c = s.csrFirst c + cap := by
        rw [done.csrFirst, update_self, Nat.mod_eq_of_lt (by omega)]
      obtain ⟨final, families⟩ := ih (isolated.init list (by omega) done size)
        ((isEdgeList_of_families done.families).mpr list) (by omega) ran
      exact ⟨final, families.trans done.families⟩
    · rw [failed] at ran
      cases ran

/-- An insertion that stays in its range. -/
theorem Isolated.insertEdges (isolated : Isolated edges s) {v : ℕ} {new : List E}
    (fits : (s.item c v).size < (s.item c v).capacity → (s.item c v).size + new.length ≤ (s.item c v).capacity)
    (ran : s.insertEdges c v new = .ok s') :
    Isolated (fun c' v' => edges c' v' ++ if c = c' ∧ v = v' then new else []) s' ∧
      s'.families = s.families := by
  cases found : s.edge? c with
  | none =>
    simp only [Vertex.insertEdges, found] at ran
    cases ran
  | some both =>
    obtain ⟨family, edge⟩ := both
    obtain ⟨room, done⟩ := insertEdges_spec found ran
    exact ⟨isolated.insert found done room (fits room), done.families⟩

/-- One call that fits. -/
theorem Isolated.call {call : EdgeCall E} (isolated : Isolated edges s) (fits : Fits s call)
    (ran : s.edgeCall call = .ok s') :
    Isolated (fun c v => edges c v ++ call.inserts c v) s' ∧ s'.families = s.families := by
  cases call with
  | edgeListInitBatch c values =>
    simp only [EdgeCall.inserts, List.append_nil]
    by_cases list : s.IsEdgeList c
    · exact isolated.batch list fits ran
    · have none : s.edge? c = none := by simpa [IsEdgeList] using list
      have ran : s.edgeListInitBatch c values = .ok s' := ran
      cases values with
      | nil =>
        cases ran
        exact ⟨isolated, rfl⟩
      | cons value rest =>
        rw [edgeListInitBatch, List.foldlM_cons, initEdgeList, none] at ran
        cases ran
  | insertEdge c v edge => exact isolated.insertEdges (fun room => room) ran
  | insertEdgeList c v new => exact isolated.insertEdges (fun _ => fits) ran

/-- Runs whose calls fit. -/
theorem Isolated.run {calls : List (EdgeCall E)} (isolated : Isolated edges s)
    (fits : Runs.Each edgeCall Fits s calls) (ran : calls.foldlM edgeCall s = .ok s') :
    Isolated (fun c v => edges c v ++ inserted calls c v) s' ∧ s'.families = s.families := by
  induction calls generalizing s edges with
  | nil =>
    cases ran
    simpa [inserted] using isolated
  | cons call rest ih =>
    rw [List.foldlM_cons] at ran
    obtain ⟨next, moved, ran⟩ := bind_eq_ok.mp ran
    obtain ⟨here, later⟩ := fits next moved
    obtain ⟨isolated', families⟩ := isolated.call here moved
    obtain ⟨final, families'⟩ := ih isolated' later ran
    refine ⟨?_, families'.trans families⟩
    simpa only [inserted, List.flatMap_cons, List.append_assoc] using final

theorem Isolated.readEdgeList (isolated : Isolated edges s) (list : s.IsEdgeList c) (v : ℕ) :
    s.readEdgeList c v = .ok (edges c v) := by
  obtain ⟨family, edge, found⟩ := exists_edge list
  rw [readEdgeList_eq found, isolated.stored c v family edge found]

theorem isolated_blank (families : List Family) (csr : Column → ℕ → E) (rows : ℕ) :
    Isolated (fun _ _ => []) (blank families csr rows) := by
  have zero (c : Column) (v : ℕ) : (blank families csr rows).item c v = .init 0 0 0 := by
    unfold item
    split <;> rfl
  constructor <;> intros <;> simp_all [blank, new, MutableAdjlist.init]

/-- In every run whose calls fit, `ReadEdgeList` returns what was inserted for the vertex, and only a call that
inserts for it changes that. -/
theorem edge_lists_isolated (families : List Family) (csr : Column → ℕ → E) (rows : ℕ)
    (calls : List (EdgeCall E)) (fits : Runs.Each edgeCall Fits (blank families csr rows) calls)
    {s : Vertex E} (ran : calls.foldlM edgeCall (blank families csr rows) = .ok s) (c : Column)
    (list : (blank families csr rows).IsEdgeList c) (v : ℕ) :
    s.readEdgeList c v = .ok (inserted calls c v) ∧
      ∀ call s', Fits s call → s.edgeCall call = .ok s' → call.inserts c v = [] →
        s'.readEdgeList c v = s.readEdgeList c v := by
  obtain ⟨isolated, known⟩ := (isolated_blank families csr rows).run fits ran
  have list' := (isEdgeList_of_families known).mpr list
  have here := isolated.readEdgeList list' v
  rw [List.nil_append] at here
  refine ⟨here, fun call s' fits' moved other => ?_⟩
  obtain ⟨isolated', same⟩ := isolated.call fits' moved
  have after := isolated'.readEdgeList ((isEdgeList_of_families same).mpr list') v
  rw [other, List.append_nil, List.nil_append] at after
  rw [here, after]

/-- Two vertices, the first with a list of two edges. -/
def twoLists : List (EdgeCall ℕ) :=
  [.edgeListInitBatch ⟨0, 0⟩ [(0, 2), (1, 1)], .insertEdgeList ⟨0, 0⟩ 0 [10, 11],
    .insertEdge ⟨0, 0⟩ 1 20]

theorem edge_lists_isolated_twoLists : ∃ s, twoLists.foldlM edgeCall (blank oneColumn (fun _ _ => 0) 2) = .ok s ∧
    s.readEdgeList ⟨0, 0⟩ 0 = .ok [10, 11] := by
  have fits : Runs.Each edgeCall Fits (blank oneColumn (fun _ _ => 0) 2) twoLists := by
    rintro _ ⟨⟩
    refine ⟨Nat.le_of_ble_eq_true rfl, ?_⟩
    rintro _ ⟨⟩
    refine ⟨Nat.le_of_ble_eq_true rfl, ?_⟩
    rintro _ ⟨⟩
    exact ⟨trivial, trivial⟩
  exact ⟨_, rfl, (edge_lists_isolated oneColumn _ 2 twoLists fits rfl ⟨0, 0⟩ rfl 0).1⟩

/-- A list of two edges for a vertex with room for one: its second edge lies in the range of the next vertex,
whose own edge replaces it. -/
theorem edge_lists_not_isolated : ¬ ∀ (calls : List (EdgeCall ℕ)) (s : Vertex ℕ),
    calls.foldlM edgeCall (blank oneColumn (fun _ _ => 0) 2) = .ok s → ∀ c v,
      (blank oneColumn (fun _ _ => (0 : ℕ)) 2).IsEdgeList c → s.readEdgeList c v = .ok (inserted calls c v) := by
  intro all
  have read := all [.edgeListInitBatch ⟨0, 0⟩ [(0, 1), (1, 1)], .insertEdgeList ⟨0, 0⟩ 0 [10, 11],
    .insertEdge ⟨0, 0⟩ 1 20] _ rfl ⟨0, 0⟩ 0 rfl
  exact absurd read (by decide +kernel)

end Gbp.Vertex
