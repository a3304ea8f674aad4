import Mathlib

/-! # Bytes of a store

Strings of bytes stored in a sequence of bytes and loaded from it again, and numbers as bytes, the least
significant one first.
-/

namespace ByteStore

variable {store : ℕ → UInt8} {offset place n k : ℕ} {data : List UInt8}

/-- The `n` bytes from `offset` on. -/
def load (store : ℕ → UInt8) (offset n : ℕ) : List UInt8 := (List.range n).map fun k => store (offset + k)

/-- The bytes after `data` was stored at `offset`. -/
def put (store : ℕ → UInt8) (offset : ℕ) (data : List UInt8) : ℕ → UInt8 :=
  fun i => if offset ≤ i ∧ i < offset + data.length then data.getD (i - offset) 0 else store i

@[simp] theorem length_load (store : ℕ → UInt8) (offset n : ℕ) : (load store offset n).length = n := by simp [load]

theorem load_zero (store : ℕ → UInt8) (offset : ℕ) : load store offset 0 = [] := rfl

theorem load_congr {other : ℕ → UInt8} (same : ∀ i, offset ≤ i → i < offset + n → store i = other i) :
    load store offset n = load other offset n := by
  refine List.map_congr_left fun k member => ?_
  have := List.mem_range.mp member
  exact same _ (Nat.le_add_right ..) (by omega)

/-- What was stored is loaded. -/
theorem load_put (store : ℕ → UInt8) (offset : ℕ) (data : List UInt8) :
    load (put store offset data) offset data.length = data := by
  refine List.ext_getElem (length_load ..) fun k here inside => ?_
  have within : offset ≤ offset + k ∧ offset + k < offset + data.length := ⟨Nat.le_add_right .., by omega⟩
  simp only [load, put, List.getElem_map, List.getElem_range, if_pos within, Nat.add_sub_cancel_left]
  exact List.getD_eq_getElem _ _ inside

/-- Nothing else changes. -/
theorem load_put_apart (apart : offset + data.length ≤ place ∨ place + n ≤ offset) :
    load (put store offset data) place n = load store place n :=
  load_congr fun i low high => if_neg (by omega)

theorem load_take (few : k ≤ n) : (load store offset n).take k = load store offset k := by
  rw [load, ← List.map_take, List.take_range, min_eq_left few]
  rfl

/-- The bytes of a number. -/
def ofNat : ℕ → ℕ → List UInt8
  | 0, _ => []
  | n + 1, value => UInt8.ofNat value :: ofNat n (value / 256)

/-- The number that the bytes are. -/
def toNat : List UInt8 → ℕ
  | [] => 0
  | byte :: rest => byte.toNat + 256 * toNat rest

@[simp] theorem length_ofNat (n value : ℕ) : (ofNat n value).length = n := by
  induction n generalizing value with
  | zero => rfl
  | succ n ih => rw [ofNat, List.length_cons, ih]

theorem toNat_ofNat (n value : ℕ) : toNat (ofNat n value) = value % 256 ^ n := by
  induction n generalizing value with
  | zero => rw [ofNat, toNat, Nat.pow_zero, Nat.mod_one]
  | succ n ih =>
    have split : value % 256 ^ (n + 1) = value % 256 + 256 * (value / 256 % 256 ^ n) := by
      rw [Nat.pow_succ', Nat.mod_mul]
    rw [ofNat, toNat, ih, split]
    rfl

/-- Bytes that are all zero are the number zero. -/
theorem toNat_zeros (n : ℕ) : toNat (List.replicate n 0) = 0 := by
  induction n with
  | zero => rfl
  | succ n ih =>
    rw [List.replicate_succ, toNat, ih]
    rfl

end ByteStore
