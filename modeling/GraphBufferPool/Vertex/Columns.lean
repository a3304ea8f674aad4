import GraphBufferPool.Lib.ByteStore
import GraphBufferPool.Lib.Reach
import GraphBufferPool.Vertex.Vertex

/-! # The columns of a vertex table

`InsertColumn` and `ReadColumn` of `Vertex` by one thread. A value of fixed length lies in the row of its vertex; a
string lies in the string file of the family, behind the strings that were inserted before it, and its place
and length are in the row. The length has 16 bits there: of a longer string a shorter part is read.
Files store and return bytes as written, and offsets stay below 2^64.
-/

namespace Gbp

open Function Machine

/-- `string_item`, with the widths of its bit-fields. -/
structure StringItem where
  offset : ℕ
  length : ℕ
  offset_lt : offset < 2 ^ 48
  length_lt : length < 2 ^ 16

namespace StringItem

theorem offset_narrow (n : ℕ) : n % 2 ^ 48 < 2 ^ 48 := Nat.mod_lt n (Nat.two_pow_pos 48)

theorem length_narrow (n : ℕ) : n % 2 ^ 16 < 2 ^ 16 := Nat.mod_lt n (Nat.two_pow_pos 16)

/-- `string_item position = {offset, length}`. -/
def of (offset length : ℕ) : StringItem :=
  ⟨offset % 2 ^ 48, length % 2 ^ 16, offset_narrow offset, length_narrow length⟩

/-- Its bytes. -/
def bytes (item : StringItem) : List UInt8 := ByteStore.ofNat 8 (item.offset + 2 ^ 48 * item.length)

/-- The item in these bytes. -/
def ofBytes (bytes : List UInt8) : StringItem :=
  let word := ByteStore.toNat bytes
  of word (word / 2 ^ 48)

theorem length_bytes (item : StringItem) : item.bytes.length = 8 := ByteStore.length_ofNat ..

theorem ofBytes_bytes (item : StringItem) : ofBytes item.bytes = item := by
  obtain ⟨offset, length, narrow, short⟩ := item
  have word : (offset + 2 ^ 48 * length) % 256 ^ 8 = offset + 2 ^ 48 * length := Nat.mod_eq_of_lt (by omega)
  simp only [ofBytes, bytes, ByteStore.toNat_ofNat, word, of]
  congr 1 <;> omega

end StringItem

/-- `Vertex` with its columns of values: for each family the bytes of `property_buffer_` and of
`dynamic_length_column_family`, and `dynamic_length_column_family_size`. -/
structure VertexColumns where
  families : List Family
  properties : ℕ → ℕ → UInt8
  strings : ℕ → ℕ → UInt8
  stringsSize : ℕ → ℕ

namespace VertexColumns

/-- A table after `Init` and `Resize`, with rows of zeros. -/
def new (families : List Family) (strings : ℕ → ℕ → UInt8) : VertexColumns :=
  ⟨families, fun _ _ => 0, strings, fun _ => 0⟩

/-- The family and the type of a column. -/
def column? (s : VertexColumns) (c : Column) : Option (Family × ColumnType) :=
  (s.families[c.family]?).bind fun family => (family.columns[c.columnId]?).map fun type => (family, type)

/-- `FixedLengthColumnFamily::setColumn`. -/
def setColumn (s : VertexColumns) (c : Column) (family : Family) (rowId : ℕ) (newValue : List UInt8) : VertexColumns :=
  { s with properties :=
      update s.properties c.family (ByteStore.put (s.properties c.family) (family.place rowId c.columnId) newValue) }

/-- `InsertColumn`. -/
def insertColumn (s : VertexColumns) (vertexId : ℕ) (c : Column) (value : List UInt8) : Except Stop VertexColumns :=
  match s.column? c with
  | none => .error .badIndex
  | some (_, .dynamicEdgeList _) => .error .assertion
  | some (family, .dynamicString) =>
    let startPos := s.stringsSize c.family
    let stored := { s with
      stringsSize := update s.stringsSize c.family ((startPos + value.length) % 2 ^ 64)
      strings := update s.strings c.family (ByteStore.put (s.strings c.family) startPos value) }
    .ok (stored.setColumn c family vertexId (StringItem.of startPos value.length).bytes)
  | some (family, _) => .ok (s.setColumn c family vertexId value)

/-- The bytes of a block of a file. -/
def blockBytes (file : ℕ → UInt8) (block : FileBlock) : List UInt8 := ByteStore.load file block.offset block.size

/-- `ReadColumn`, with the bytes of the block that it returns. -/
def readColumn (s : VertexColumns) (vertexId : ℕ) (c : Column) : Except Stop (List UInt8) :=
  match s.column? c with
  | none => .error .badIndex
  | some (_, .dynamicEdgeList _) => .error .assertion
  | some (family, type) => do
    let offset ← family.getColumn vertexId c.columnId
    let bytes := blockBytes (s.properties c.family) ⟨offset, type.length⟩
    match type with
    | .dynamicString =>
      let item := StringItem.ofBytes bytes
      return blockBytes (s.strings c.family) (getItems 1 item.offset item.length)
    | _ => return bytes

/-- The bytes of a cell in its row. -/
def cellBytes (s : VertexColumns) (c : Column) (family : Family) (type : ColumnType) (v : ℕ) : List UInt8 :=
  ByteStore.load (s.properties c.family) (family.place v c.columnId) type.length

/-- What is read of a cell of fixed length. -/
abbrev zeros (type : ColumnType) : List UInt8 := List.replicate type.length 0

variable {s s' : VertexColumns} {c c' : Column} {family family' : Family} {type type' : ColumnType} {v v' : ℕ}
  {value newValue : List UInt8}

theorem column?_eq_some_iff : s.column? c = some (family, type) ↔
    s.families[c.family]? = some family ∧ family.columns[c.columnId]? = some type := by
  simp only [column?, Option.bind_eq_some_iff, Option.map_eq_some_iff, Prod.mk.injEq]
  constructor
  · rintro ⟨known, here, type, column, rfl, rfl⟩
    exact ⟨here, column⟩
  · rintro ⟨here, column⟩
    exact ⟨family, here, type, column, rfl, rfl⟩

theorem column?_congr (same : s'.families = s.families) (c : Column) : s'.column? c = s.column? c := by
  rw [column?, column?, same]

/-- A string is one range of its file. -/
theorem getItems_one (idx len : ℕ) : getItems 1 idx len = ⟨idx, len⟩ := by
  have place (idx : ℕ) : fileOffset 1 idx = idx := by
    rw [fileOffset, objNumPerPage_eq, Nat.div_one, Nat.mul_one]
    exact Nat.div_add_mod' idx pageSize
  have tail (len : ℕ) : len / objNumPerPage 1 * pageSize + len % objNumPerPage 1 * 1 = len := place len
  simp only [getItems, place, Nat.div_one, tail, Nat.one_mul]
  split_ifs with inside
  · rfl
  · rw [Nat.add_sub_cancel' (Nat.le_of_not_lt inside)]

/-- What `ReadColumn` returns of a cell, from its bytes in the row. -/
theorem readColumn_eq (found : s.column? c = some (family, type)) (value : ∀ edge, type ≠ .dynamicEdgeList edge) (v : ℕ) :
    s.readColumn v c = .ok (if type = .dynamicString then
      ByteStore.load (s.strings c.family) (StringItem.ofBytes (s.cellBytes c family type v)).offset
        (StringItem.ofBytes (s.cellBytes c family type v)).length
      else s.cellBytes c family type v) := by
  have placed := Family.getColumn_eq (column?_eq_some_iff.mp found).2 v
  cases type with
  | dynamicEdgeList edge => exact absurd rfl (value edge)
  | dynamicString =>
    simp only [readColumn, found, placed, ok_bind, getItems_one]
    rfl
  | int32 | date | int64 =>
    simp only [readColumn, found, placed, ok_bind, reduceCtorEq, if_false]
    rfl

@[simp] theorem setColumn_properties (s : VertexColumns) (c : Column) (family : Family) (v : ℕ) (newValue : List UInt8) :
    (s.setColumn c family v newValue).properties = update s.properties c.family
      (ByteStore.put (s.properties c.family) (family.place v c.columnId) newValue) := rfl

/-- The cell that is set has the new bytes. -/
theorem cellBytes_setColumn (length : newValue.length = type.length) :
    (s.setColumn c family v newValue).cellBytes c family type v = newValue := by
  rw [cellBytes, setColumn_properties, update_self, ← length]
  exact ByteStore.load_put ..

/-- The other cells have their old bytes. -/
theorem cellBytes_setColumn_other (here : s.column? c = some (family, type))
    (there : s.column? c' = some (family', type')) (length : newValue.length = type.length) (apart : (c', v') ≠ (c, v)) :
    (s.setColumn c family v newValue).cellBytes c' family' type' v' = s.cellBytes c' family' type' v' := by
  obtain ⟨known, column⟩ := column?_eq_some_iff.mp here
  obtain ⟨known', column'⟩ := column?_eq_some_iff.mp there
  rw [cellBytes, cellBytes, setColumn_properties]
  by_cases same : c'.family = c.family
  · obtain rfl : family' = family := by
      rw [same, known] at known'
      exact (Option.some.inj known').symm
    have cells : (v, c.columnId) ≠ (v', c'.columnId) := by
      intro pair
      obtain ⟨rows, ids⟩ := Prod.mk.inj pair
      exact apart (Prod.ext (Column.ext same ids.symm) rows.symm)
    rw [same, update_self]
    refine ByteStore.load_put_apart ?_
    rw [length]
    exact Family.place_disjoint column column' cells
  · rw [update_of_ne same]

/-- A value may be inserted: one of the length of the column, or a string that fits in the string file. -/
def Fits (s : VertexColumns) (fileSize : ℕ → ℕ) (c : Column) (value : List UInt8) : Prop :=
  match s.column? c with
  | some (_, .dynamicString) => s.stringsSize c.family + value.length ≤ fileSize c.family
  | some (_, .dynamicEdgeList _) | none => False
  | some (_, type) => value.length = type.length

/-- The sizes of the string files. A page id has 32 bits. -/
structure StringFiles where
  size : ℕ → ℕ
  addressable : ∀ family, size family ≤ fpageIdRange * pageSize

/-- What was inserted last for each cell. -/
abbrev Inserted := Column × ℕ → Option (List UInt8)

/-- The cell has in its row what was inserted last: the value, or an item whose range of the string file has the string
and is in use. -/
def Holds (s : VertexColumns) (c : Column) (family : Family) (type : ColumnType) (v : ℕ) : Option (List UInt8) → Prop
  | none => s.cellBytes c family type v = zeros type
  | some value =>
    if type = .dynamicString then ∃ offset, s.cellBytes c family type v = (StringItem.of offset value.length).bytes ∧
      offset + value.length ≤ s.stringsSize c.family ∧ ByteStore.load (s.strings c.family) offset value.length = value
    else s.cellBytes c family type v = value

/-- Every cell holds what was inserted last, and the string files are in use up to their sizes at most. -/
structure Keeps (files : StringFiles) (s : VertexColumns) (last : Inserted) : Prop where
  used : ∀ f, s.stringsSize f ≤ files.size f
  known : ∀ c v value, last (c, v) = some value → ∃ family type, s.column? c = some (family, type) ∧
    ∀ edge, type ≠ .dynamicEdgeList edge
  holds : ∀ c family type v, s.column? c = some (family, type) → s.Holds c family type v (last (c, v))

/-- What is read for a cell: of a string the part that its length modulo 2^16 says. -/
def shown (type : ColumnType) : Option (List UInt8) → List UInt8
  | some value => if type = .dynamicString then value.take (value.length % 2 ^ 16) else value
  | none => if type = .dynamicString then [] else zeros type

variable {files : StringFiles} {last : Inserted}

theorem Keeps.new (files : StringFiles) (families : List Family) (strings : ℕ → ℕ → UInt8) :
    Keeps files (VertexColumns.new families strings) fun _ => none where
  used f := Nat.zero_le _
  known := by simp
  holds c family type v _ := by
    refine List.eq_replicate_iff.mpr ⟨ByteStore.length_load .., fun byte member => ?_⟩
    obtain ⟨k, _, rfl⟩ := List.mem_map.mp member
    rfl

/-- `ReadColumn` of any cell. -/
theorem Keeps.readColumn (keeps : Keeps files s last) (found : s.column? c = some (family, type))
    (simple : ∀ edge, type ≠ .dynamicEdgeList edge) (v : ℕ) : s.readColumn v c = .ok (shown type (last (c, v))) := by
  have holds := keeps.holds c family type v found
  rw [readColumn_eq found simple]
  cases known : last (c, v) with
  | none =>
    rw [known, Holds] at holds
    rw [holds, shown]
    split_ifs with string
    · have item : (StringItem.ofBytes (zeros type)).length = 0 := by
        simp only [StringItem.ofBytes, zeros, ByteStore.toNat_zeros, StringItem.of, Nat.zero_div, Nat.zero_mod]
      rw [item, ByteStore.load_zero]
    · rfl
  | some value =>
    rw [known, Holds] at holds
    rw [shown]
    split_ifs at holds ⊢ with string
    · obtain ⟨offset, bytes, inside, content⟩ := holds
      have small : offset + value.length ≤ 2 ^ 44 := (inside.trans (keeps.used _)).trans (files.addressable _)
      have place : offset % 2 ^ 48 = offset := Nat.mod_eq_of_lt (by omega)
      rw [bytes, StringItem.ofBytes_bytes]
      simp only [StringItem.of, place]
      rw [← ByteStore.load_take (Nat.mod_le value.length (2 ^ 16)), content]
    · rw [holds]

/-- A cell of a table whose string files only grew behind the strings in use. -/
theorem Holds.mono {shownLast : Option (List UInt8)} (holds : s.Holds c family type v shownLast)
    (bytes : s'.cellBytes c family type v = s.cellBytes c family type v)
    (grown : s.stringsSize c.family ≤ s'.stringsSize c.family)
    (strings : ∀ i < s.stringsSize c.family, s'.strings c.family i = s.strings c.family i) :
    s'.Holds c family type v shownLast := by
  cases shownLast with
  | none => exact bytes.trans holds
  | some value =>
    rw [Holds] at holds ⊢
    split_ifs at holds ⊢
    · obtain ⟨offset, item, inside, content⟩ := holds
      refine ⟨offset, bytes.trans item, inside.trans grown, (ByteStore.load_congr fun i _ high => ?_).trans content⟩
      exact strings i (by omega)
    · exact bytes.trans holds

/-- What an insertion does to the table: the cell has its item or value, and the string file has the string. -/
theorem Keeps.insertColumn (keeps : Keeps files s last) (fits : s.Fits files.size c value) (v : ℕ) :
    ∃ s', s.insertColumn v c value = .ok s' ∧ s'.families = s.families ∧
      Keeps files s' (update last (c, v) (some value)) := by
  cases found : s.column? c with
  | none =>
    rw [Fits, found] at fits
    exact fits.elim
  | some known =>
    obtain ⟨family, type⟩ := known
    have known (simple : ∀ edge, type ≠ .dynamicEdgeList edge) (c' : Column) (v' : ℕ) (other : List UInt8)
        (inserted : update last (c, v) (some value) (c', v') = some other) : ∃ family type,
          s.column? c' = some (family, type) ∧ ∀ edge, type ≠ .dynamicEdgeList edge := by
      by_cases same : (c', v') = (c, v)
      · obtain ⟨rfl, rfl⟩ := Prod.mk.inj same
        exact ⟨family, type, found, simple⟩
      · rw [update_of_ne same] at inserted
        exact keeps.known c' v' other inserted
    have simple (simple : ∀ edge, type ≠ .dynamicEdgeList edge) (length : value.length = type.length)
        (other : type ≠ .dynamicString) :
        Keeps files (s.setColumn c family v value) (update last (c, v) (some value)) := by
      refine ⟨keeps.used, known simple, fun c' family' type' v' found' => ?_⟩
      have there : s.column? c' = some (family', type') := found'
      by_cases same : (c', v') = (c, v)
      · obtain ⟨rfl, rfl⟩ := Prod.mk.inj same
        cases found.symm.trans there
        rw [update_self, Holds, if_neg other]
        exact cellBytes_setColumn length
      · rw [update_of_ne same]
        exact (keeps.holds c' family' type' v' there).mono (cellBytes_setColumn_other found there length same) le_rfl
          fun _ _ => rfl
    cases type with
    | dynamicEdgeList edge =>
      rw [Fits, found] at fits
      exact fits.elim
    | int32 | date | int64 =>
      rw [Fits, found] at fits
      refine ⟨s.setColumn c family v value, ?_, rfl, simple (by simp) fits (by simp)⟩
      simp only [VertexColumns.insertColumn, found]
    | dynamicString =>
      rw [Fits, found] at fits
      have fits : s.stringsSize c.family + value.length ≤ files.size c.family := fits
      have addressable : files.size c.family ≤ 2 ^ 44 := files.addressable c.family
      have counted : (s.stringsSize c.family + value.length) % 2 ^ 64 = s.stringsSize c.family + value.length :=
        Nat.mod_eq_of_lt (by omega)
      let stored : VertexColumns := { s with
        stringsSize := update s.stringsSize c.family (s.stringsSize c.family + value.length)
        strings := update s.strings c.family (ByteStore.put (s.strings c.family) (s.stringsSize c.family) value) }
      let item := StringItem.of (s.stringsSize c.family) value.length
      have ended : stored.stringsSize c.family = s.stringsSize c.family + value.length := update_self ..
      have grown (f : ℕ) : s.stringsSize f ≤ stored.stringsSize f := by
        by_cases same : f = c.family
        · simp [stored, same]
        · simp [stored, same]
      have kept (f i : ℕ) (below : i < s.stringsSize f) : stored.strings f i = s.strings f i := by
        by_cases same : f = c.family
        · subst same
          simp only [stored, update_self]
          exact if_neg (by omega)
        · simp [stored, same]
      refine ⟨stored.setColumn c family v item.bytes, ?_, rfl, fun f => ?_, known (by simp), fun c' family' type' v' found' => ?_⟩
      · simp only [VertexColumns.insertColumn, found, counted]
        rfl
      · by_cases same : f = c.family
        · subst same
          exact ended.trans_le fits
        · have other : stored.stringsSize f = s.stringsSize f := update_of_ne same ..
          exact other.trans_le (keeps.used f)
      · have there : stored.column? c' = some (family', type') := found'
        have length : item.bytes.length = ColumnType.dynamicString.length := item.length_bytes
        by_cases same : (c', v') = (c, v)
        · obtain ⟨rfl, rfl⟩ := Prod.mk.inj same
          cases found.symm.trans there
          rw [update_self, Holds, if_pos rfl]
          refine ⟨s.stringsSize c'.family, cellBytes_setColumn length, ended.ge, ?_⟩
          have strings : (stored.setColumn c' family v' item.bytes).strings c'.family =
              ByteStore.put (s.strings c'.family) (s.stringsSize c'.family) value := update_self ..
          rw [strings]
          exact ByteStore.load_put ..
        · rw [update_of_ne same]
          exact (keeps.holds c' family' type' v' there).mono (cellBytes_setColumn_other found there length same)
            (grown c'.family) (kept c'.family)

/-- A value is inserted. -/
inductive InsertStep (files : StringFiles) : VertexColumns × Inserted → VertexColumns × Inserted → Prop
  | insert {s s' : VertexColumns} {last : Inserted} (c : Column) (v : ℕ) (value : List UInt8)
      (fits : s.Fits files.size c value) (ran : s.insertColumn v c value = .ok s') :
      InsertStep files (s, last) (s', update last (c, v) (some value))

/-- A run of insertions into a table after `Init` and `Resize`. -/
abbrev InsertRun (files : StringFiles) (families : List Family) (strings : ℕ → ℕ → UInt8) :
    VertexColumns × Inserted → Prop :=
  Reach (· = (new families strings, fun _ => none)) (InsertStep files)

theorem InsertRun.keeps {families : List Family} {strings : ℕ → ℕ → UInt8} {state : VertexColumns × Inserted}
    (run : InsertRun files families strings state) : Keeps files state.1 state.2 := by
  refine @Reach.invariant _ _ _ (fun state => Keeps files state.1 state.2) (fun state start => ?_)
    (fun before after keeps step => ?_) state run
  · rw [start]
    exact .new ..
  · obtain ⟨c, v, value, fits, ran⟩ := step
    obtain ⟨s', inserted, _, kept⟩ := keeps.insertColumn fits v
    cases inserted.symm.trans ran
    exact kept

/-- The part of a string that is read is the string if and only if it is shorter than 2^16 bytes. -/
theorem shown_eq_iff : shown type (some value) = value ↔ (type = .dynamicString → value.length < 2 ^ 16) := by
  rw [shown]
  split_ifs with string
  · rw [List.take_eq_self_iff, forall_prop_of_true string]
    constructor
    · intro whole
      exact whole.trans_lt (Nat.mod_lt _ (Nat.two_pow_pos 16))
    · exact fun short => (Nat.mod_eq_of_lt short).ge
  · exact iff_of_true rfl fun same => absurd same string

/-- In every run the value that was inserted last for a cell is read if and only if it is not a string of 2^16 bytes or
more; and an insertion never changes what is read for another cell. -/
theorem columns_round_trip_iff {families : List Family} {strings : ℕ → ℕ → UInt8} {state : VertexColumns × Inserted}
    (run : InsertRun files families strings state) :
    (∀ c v value, state.2 (c, v) = some value → (state.1.readColumn v c = .ok value ↔
      ((∃ family, state.1.column? c = some (family, .dynamicString)) → value.length < 2 ^ 16))) ∧
    ∀ c v value, state.1.Fits files.size c value → ∃ s', state.1.insertColumn v c value = .ok s' ∧
      ∀ c' v', (c', v') ≠ (c, v) → s'.readColumn v' c' = state.1.readColumn v' c' := by
  have keeps := run.keeps
  refine ⟨fun c v value inserted => ?_, fun c v value fits => ?_⟩
  · obtain ⟨family, type, found, simple⟩ := keeps.known c v value inserted
    have string : (∃ family, state.1.column? c = some (family, .dynamicString)) ↔ type = .dynamicString := by
      simp [found]
    rw [keeps.readColumn found simple v, inserted, Except.ok.injEq, shown_eq_iff, string]
  · obtain ⟨s', ran, families, kept⟩ := keeps.insertColumn fits v
    refine ⟨s', ran, fun c' v' other => ?_⟩
    have column := column?_congr families c'
    cases found : state.1.column? c' with
    | none => simp only [readColumn, column, found]
    | some known =>
      obtain ⟨family, type⟩ := known
      by_cases edges : ∃ edge, type = .dynamicEdgeList edge
      · obtain ⟨edge, rfl⟩ := edges
        simp only [readColumn, column, found]
      · have simple : ∀ edge, type ≠ .dynamicEdgeList edge := fun edge same => edges ⟨edge, same⟩
        rw [keeps.readColumn found simple v', kept.readColumn (column.trans found) simple v', update_of_ne other]

/-- A table with a string column, and a string file of one megabyte. -/
def nameTable : VertexColumns := new [⟨[.int32, .dynamicString], by decide⟩] fun _ _ => 0

/-- The string column. -/
def nameColumn : Column := ⟨0, 1⟩

def nameFiles : StringFiles := ⟨fun _ => 2 ^ 20, fun _ => by decide⟩

theorem nameTable_fits {value : List UInt8} (short : value.length ≤ 2 ^ 20) :
    nameTable.Fits nameFiles.size nameColumn value := (Nat.zero_add _).trans_le short

/-- Two strings and a number are inserted, and the first string is replaced. -/
def fourInserted : Except Stop VertexColumns := do
  let s ← nameTable.insertColumn 3 nameColumn [65, 66]
  let s ← s.insertColumn 3 ⟨0, 0⟩ [1, 0, 0, 0]
  let s ← s.insertColumn 4 nameColumn [67]
  s.insertColumn 3 nameColumn [68]

theorem columns_round_trip_iff_fourInserted : ∃ s', fourInserted = .ok s' ∧ s'.readColumn 3 nameColumn = .ok [68] ∧
    s'.readColumn 4 nameColumn = .ok [67] ∧ s'.readColumn 3 ⟨0, 0⟩ = .ok [1, 0, 0, 0] := by
  have start : InsertRun nameFiles nameTable.families nameTable.strings (nameTable, fun _ => none) := .init rfl
  have first := start.step (.insert nameColumn 3 [65, 66] (show 0 + 2 ≤ 2 ^ 20 by decide) rfl)
  have second := first.step (.insert ⟨0, 0⟩ 3 [1, 0, 0, 0] rfl rfl)
  have third := second.step (.insert nameColumn 4 [67] (show 2 + 1 ≤ 2 ^ 20 by decide) rfl)
  have last := third.step (.insert nameColumn 3 [68] (show 3 + 1 ≤ 2 ^ 20 by decide) rfl)
  have shows := (columns_round_trip_iff last).1
  refine ⟨_, rfl, (shows _ _ _ ?_).mpr ?_, (shows _ _ _ ?_).mpr ?_, (shows _ _ _ ?_).mpr ?_⟩
  all_goals first | rfl | exact fun _ => by decide
/-- Of a string of 2^16 bytes nothing is read. -/
theorem long_string_lost : ∃ s', nameTable.insertColumn 3 nameColumn (List.replicate (2 ^ 16) 65) = .ok s' ∧
    s'.readColumn 3 nameColumn = .ok [] ∧ s'.readColumn 3 nameColumn ≠ .ok (List.replicate (2 ^ 16) 65) := by
  have length := List.length_replicate (n := 2 ^ 16) (a := (65 : UInt8))
  have fits : nameTable.Fits nameFiles.size nameColumn (List.replicate (2 ^ 16) 65) :=
    nameTable_fits (length.trans_le (by decide))
  obtain ⟨s', ran, families, keeps⟩ := (Keeps.new nameFiles _ _).insertColumn fits 3
  have found : s'.column? nameColumn = nameTable.column? nameColumn := column?_congr families nameColumn
  have read := keeps.readColumn (found.trans rfl) (by simp) 3
  rw [update_self, shown, if_pos rfl, length, Nat.mod_self, List.take_zero] at read
  refine ⟨s', ran, read, fun same => ?_⟩
  rw [read, Except.ok.injEq] at same
  have none := congrArg List.length same
  rw [length] at none
  exact absurd none (by decide)

end VertexColumns

end Gbp
