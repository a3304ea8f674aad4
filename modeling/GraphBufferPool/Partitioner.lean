import GraphBufferPool.Config
import Mathlib

/-! # The round-robin partitioner

`RoundRobinPartitioner` for a power-of-two number of pools. Inside one pool the local page id
determines the page, so a mapping slot belongs to a single page of the pool.
-/

namespace Gbp

/-- `RoundRobinPartitioner`; the number of partitions is a power of two by its assertion. -/
structure Partitioner where
  log2NumPartitions : ℕ
deriving DecidableEq

namespace Partitioner

variable (part : Partitioner)

def numPartitions : ℕ := 2 ^ part.log2NumPartitions

def getPartitionId (fpageId : ℕ) : ℕ := fpageId &&& (part.numPartitions - 1)

def getFPageIdInPartition (fpageId : ℕ) : ℕ := fpageId >>> part.log2NumPartitions

def getFPageIdGlobal (partitionId fpageIdInPartition : ℕ) : ℕ :=
  partitionId + fpageIdInPartition * part.numPartitions

theorem numPartitions_pos : 0 < part.numPartitions := Nat.two_pow_pos _

theorem getPartitionId_eq (fpageId : ℕ) :
    part.getPartitionId fpageId = fpageId % part.numPartitions :=
  Nat.and_two_pow_sub_one_eq_mod ..

theorem getFPageIdInPartition_eq (fpageId : ℕ) :
    part.getFPageIdInPartition fpageId = fpageId / part.numPartitions :=
  Nat.shiftRight_eq_div_pow ..

theorem getPartitionId_lt (fpageId : ℕ) : part.getPartitionId fpageId < part.numPartitions := by
  rw [getPartitionId_eq]
  exact Nat.mod_lt _ part.numPartitions_pos

/-- The global page id is recovered from the pool and the local page id. -/
theorem getFPageIdGlobal_split (fpageId : ℕ) :
    part.getFPageIdGlobal (part.getPartitionId fpageId) (part.getFPageIdInPartition fpageId) =
      fpageId := by
  rw [getFPageIdGlobal, getPartitionId_eq, getFPageIdInPartition_eq, Nat.add_comm]
  exact Nat.div_add_mod' _ _

/-- Two pages of one pool share a slot only when they are equal. -/
theorem slot_injective {a b : ℕ} (pool : part.getPartitionId a = part.getPartitionId b)
    (slot : part.getFPageIdInPartition a = part.getFPageIdInPartition b) : a = b := by
  rw [← part.getFPageIdGlobal_split a, ← part.getFPageIdGlobal_split b, pool, slot]

end Partitioner

end Gbp
