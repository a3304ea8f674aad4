import GraphBufferPool.Lib.Getline
import Mathlib.Data.List.GetD

/-! # `csv_reader.h`

A file of lines, each cut at a delimiter. An empty field at the end of a line is no piece of it, and a column
leaves out the rows that are too short for it.
-/

namespace Csv

open Getline

/-- A `std::string`. -/
abbrev Bytes := List UInt8

/-- The delimiter of `std::getline` where none is given. -/
abbrev newline : UInt8 := 10

/-- `CSVLoader`. -/
structure CSVLoader where
  headers : List Bytes := []
  data : List (List Bytes) := []
deriving DecidableEq, Repr

/-- `split_line`. -/
def splitLine (line : Bytes) (delimiter : UInt8) : List Bytes := getlines delimiter line

namespace CSVLoader

/-- `load`, of the text that the path names, or of a file that does not open; the rows go behind those of a `load` before. -/
def load (loader : CSVLoader) (file : Option Bytes) (delimiter : UInt8) : Bool × CSVLoader :=
  match file with
  | none => (false, loader)
  | some text =>
    match getline newline text with
    | none => (false, loader)
    | some read => (true,
      { headers := splitLine read.1 delimiter
        data := loader.data ++ (getlines newline read.2).map fun line => splitLine line delimiter })

/-- `row_count`. -/
def rowCount (loader : CSVLoader) : ℕ := loader.data.length

/-- `column_count`. -/
def columnCount (loader : CSVLoader) : ℕ := loader.headers.length

/-- `get_column`. -/
def getColumn (loader : CSVLoader) (i : ℕ) : List Bytes :=
  if loader.headers.length ≤ i then [] else loader.data.filterMap fun row => row[i]?

/-- `get_element`. -/
def getElement (loader : CSVLoader) (i j : ℕ) : Bytes :=
  if loader.data.length ≤ i ∨ loader.headers.length ≤ j then []
  else if (loader.data.getD i []).length ≤ j then []
  else (loader.data.getD i []).getD j []

/-- Every column has one entry for each row, the row's element. -/
def Aligned (loader : CSVLoader) : Prop :=
  ∀ i < loader.columnCount, (loader.getColumn i).length = loader.rowCount ∧
    ∀ r < loader.rowCount, (loader.getColumn i)[r]? = some (loader.getElement r i)

variable {loader : CSVLoader} {i r : ℕ}

theorem getColumn_eq (inside : i < loader.columnCount) : loader.getColumn i = loader.data.filterMap fun row => row[i]? :=
  if_neg (Nat.not_le.mpr inside)

/-- A column that every row reaches is the column of the table. -/
theorem getColumn_eq_map (inside : i < loader.columnCount) (reaches : ∀ row ∈ loader.data, i < row.length) :
    loader.getColumn i = loader.data.map fun row => row.getD i [] := by
  rw [getColumn_eq inside]
  generalize loader.data = rows at reaches
  induction rows with
  | nil => rfl
  | cons row rows ih =>
    have inRow := reaches row List.mem_cons_self
    rw [List.filterMap_cons, List.map_cons, List.getElem?_eq_getElem inRow, List.getD_eq_getElem _ _ inRow,
      ih fun row member => reaches row (List.mem_cons_of_mem _ member)]

/-- A column has as many entries as there are rows that reach it. -/
theorem length_getColumn_iff (inside : i < loader.columnCount) :
    (loader.getColumn i).length = loader.rowCount ↔ ∀ row ∈ loader.data, i < row.length := by
  rw [getColumn_eq inside, rowCount, List.filterMap_length_eq_length]
  simp

theorem getElement_eq (inside : i < loader.columnCount) (row : r < loader.rowCount) :
    loader.getElement r i = (loader.data.getD r []).getD i [] := by
  have inRange : ¬ (loader.data.length ≤ r ∨ loader.headers.length ≤ i) :=
    not_or.mpr ⟨Nat.not_le.mpr row, Nat.not_le.mpr inside⟩
  rw [getElement, if_neg inRange]
  split
  · rename_i short
    exact (List.getD_eq_default _ _ short).symm
  · rfl

theorem aligned_iff : loader.Aligned ↔ ∀ row ∈ loader.data, loader.columnCount ≤ row.length := by
  constructor
  · intro aligned row member
    by_contra short
    have inside : row.length < loader.columnCount := Nat.not_le.mp short
    exact lt_irrefl _ ((length_getColumn_iff inside).mp (aligned _ inside).1 row member)
  · intro wide i inside
    have reaches : ∀ row ∈ loader.data, i < row.length := fun row member => inside.trans_le (wide row member)
    refine ⟨(length_getColumn_iff inside).mpr reaches, fun r row => ?_⟩
    rw [getColumn_eq_map inside reaches, getElement_eq inside row, List.getElem?_map,
      List.getElem?_eq_getElem row, Option.map_some]
    exact congrArg (fun row : List Bytes => some (row.getD i [])) (List.getD_eq_getElem _ _ row).symm

/-- The columns are aligned exactly where no row, old or new, has fewer fields than the header. A field counts
where a delimiter ends it, and the last one also where it is not empty. -/
theorem columns_aligned_iff (loader : CSVLoader) (text : Bytes) (delimiter : UInt8) (header rest : Bytes)
    (read : getline newline text = some (header, rest)) :
    (loader.load (some text) delimiter).2.Aligned ↔
      (∀ row ∈ loader.data, pieceCount delimiter header ≤ row.length) ∧
        ∀ line ∈ getlines newline rest, pieceCount delimiter header ≤ pieceCount delimiter line := by
  have loaded : (loader.load (some text) delimiter).2 =
      { headers := splitLine header delimiter
        data := loader.data ++ (getlines newline rest).map fun line => splitLine line delimiter } := by
    simp only [load, read]
  rw [aligned_iff, loaded, columnCount]
  simp only [splitLine, length_getlines, List.mem_append, List.mem_map, or_imp, forall_and, forall_exists_index, and_imp,
    forall_apply_eq_imp_iff₂]

/-- `"a|b\n1|2\n"`. -/
theorem columns_aligned_iff_twoLines :
    (({} : CSVLoader).load (some [97, 124, 98, 10, 49, 124, 50, 10]) 124).2.Aligned ↔
      (∀ row ∈ ({} : CSVLoader).data, pieceCount 124 [97, 124, 98] ≤ row.length) ∧
        ∀ line ∈ getlines newline [49, 124, 50, 10], pieceCount 124 [97, 124, 98] ≤ pieceCount 124 line :=
  columns_aligned_iff {} [97, 124, 98, 10, 49, 124, 50, 10] 124 [97, 124, 98] [49, 124, 50, 10] (by decide)

/-- `"a|b\n1|\n2|3\n"`: the second column holds the second row's field at the first row's place. -/
theorem trailing_field_lost :
    let loader := (({} : CSVLoader).load (some [97, 124, 98, 10, 49, 124, 10, 50, 124, 51, 10]) 124).2
    loader.columnCount = 2 ∧ loader.rowCount = 2 ∧ loader.getColumn 1 = [[51]] ∧ ¬ loader.Aligned := by
  have columns : (({} : CSVLoader).load (some [97, 124, 98, 10, 49, 124, 10, 50, 124, 51, 10]) 124).2 =
      ⟨[[97], [98]], [[[49]], [[50], [51]]]⟩ := by decide
  rw [columns]
  refine ⟨rfl, rfl, rfl, fun aligned => ?_⟩
  exact absurd (aligned 1 (by decide)).1 (by decide)

end CSVLoader

end Csv
