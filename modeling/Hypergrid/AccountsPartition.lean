import Hypergrid.Account

/-!
# Partitions of the accounts

`accounts-db/src/accounts_partition.rs`: the pubkeys are split into ranges, and
`partition_from_pubkey` should find the range of a pubkey.  The last range takes what is left over
when `2 ^ 64` is divided by the number of partitions; the inverse does not.
-/

namespace Hypergrid

/-- The first and the last key with a prefix. -/
def Pubkey.firstOf (keyPrefix : Nat) : Pubkey := ofNat (keyPrefix * 2 ^ 192)

def Pubkey.lastOf (keyPrefix : Nat) : Pubkey := ofNat (keyPrefix * 2 ^ 192 + (2 ^ 192 - 1))

open Pubkey

def partitionWidth (partitionCount : Nat) : Nat :=
  (u64Max - partitionCount + 1) / partitionCount + 1

/-- `pubkey_range_from_partition`, with its asserts. -/
def pubkeyRangeFromPartition (startIndex endIndex partitionCount : Nat) :
    Option (Pubkey × Pubkey) :=
  if startIndex ≤ endIndex ∧ startIndex < partitionCount ∧ endIndex < partitionCount ∧
      0 < partitionCount then
    if partitionCount = 1 then
      if startIndex = 0 ∧ endIndex = 0 then some (firstOf 0, lastOf u64Max) else none
    else
      let startPrefix :=
        if startIndex = 0 ∧ endIndex = 0 then 0
        else if startIndex + 1 = partitionCount then u64Max
        else (startIndex + 1) * partitionWidth partitionCount
      let endPrefix :=
        if endIndex + 1 = partitionCount then u64Max
        else (endIndex + 1) * partitionWidth partitionCount - 1
      -- a pair without a gap is cut down to one key
      if startIndex ≠ 0 ∧ startIndex = endIndex then
        if endPrefix = u64Max then some (lastOf endPrefix, lastOf endPrefix)
        else some (firstOf startPrefix, firstOf startPrefix)
      else some (firstOf startPrefix, lastOf endPrefix)
  else none

def prefixFromPubkey (pubkey : Pubkey) : Nat := pubkey.val.val / 2 ^ 192

def partitionFromPubkey (pubkey : Pubkey) (partitionCount : Nat) : Nat :=
  if partitionCount = 1 then 0
  else if prefixFromPubkey pubkey = 0 then 0
  else if prefixFromPubkey pubkey = u64Max then partitionCount - 1
  else
    let result := (prefixFromPubkey pubkey + 1) / partitionWidth partitionCount
    if (prefixFromPubkey pubkey + 1) % partitionWidth partitionCount = 0 then result - 1
    else result

def getPartitionEndIndexes (startIndex endIndex : Nat) : List Nat :=
  if startIndex = endIndex ∧ startIndex = 0 then [0]
  else (List.range' startIndex (endIndex - startIndex)).map (· + 1)

/-- The key that is left in the range of a pair without a gap. -/
def leftKey (index partitionCount : Nat) : Pubkey :=
  if index + 1 = partitionCount then lastOf u64Max
  else firstOf ((index + 1) * partitionWidth partitionCount)

/-- The prefix is in the first `partitionCount` widths, or it is the last one. -/
def PrefixCovered (k : Pubkey) (partitionCount : Nat) : Prop :=
  prefixFromPubkey k < partitionCount * partitionWidth partitionCount ∨ prefixFromPubkey k = u64Max

/-- The pubkey is in the range of the partition. -/
def InPartition (k : Pubkey) (startIndex endIndex n : Nat) : Prop :=
  ∃ r, pubkeyRangeFromPartition startIndex endIndex n = some r ∧ r.1 ≤ k ∧ k ≤ r.2

section Partition
variable {k : Pubkey} {n p s e : Nat}

theorem firstOf_le_iff (hp : p ≤ u64Max) : firstOf p ≤ k ↔ p ≤ prefixFromPubkey k := by
  have hval : (firstOf p).val.val = p * 2 ^ 192 := Nat.mod_eq_of_lt (by unfold u64Max at hp; omega)
  change (firstOf p).val.val ≤ k.val.val ↔ _
  rw [hval, prefixFromPubkey, Nat.le_div_iff_mul_le (by decide)]

theorem le_lastOf_iff (hp : p ≤ u64Max) : k ≤ lastOf p ↔ prefixFromPubkey k ≤ p := by
  have hval : (lastOf p).val.val = p * 2 ^ 192 + (2 ^ 192 - 1) :=
    Nat.mod_eq_of_lt (by unfold u64Max at hp; omega)
  change k.val.val ≤ (lastOf p).val.val ↔ _
  rw [hval, prefixFromPubkey]
  omega

theorem prefixFromPubkey_le (k : Pubkey) : prefixFromPubkey k ≤ u64Max := by
  have hk := k.val.isLt
  unfold prefixFromPubkey u64Max
  omega

theorem mem_getPartitionEndIndexes {i : Nat} :
    i ∈ getPartitionEndIndexes s e ↔ s < i ∧ i ≤ e ∨ s = e ∧ s = 0 ∧ i = 0 := by
  unfold getPartitionEndIndexes
  split_ifs with hzero
  · rw [List.mem_singleton]
    omega
  · simp only [List.mem_map, List.mem_range'_1]
    constructor
    · rintro ⟨j, hj, rfl⟩
      omega
    · intro hi
      exact ⟨i - 1, by omega, by omega⟩

theorem InPartition.bounds (h : InPartition k s e n) : s ≤ e ∧ e < n := by
  obtain ⟨r, hr, _⟩ := h
  unfold pubkeyRangeFromPartition at hr
  split_ifs at hr with hasserts
  all_goals exact ⟨hasserts.1, hasserts.2.2.1⟩

variable (hmax : n ≤ u64Max)
include hmax

theorem mul_partitionWidth_le {i : Nat} (hi : i < n) : i * partitionWidth n ≤ u64Max := by
  have hsub : u64Max - n + 1 = 2 ^ 64 - n := (Nat.sub_add_comm hmax).symm
  have hwidth : partitionWidth n = 2 ^ 64 / n := by
    rw [partitionWidth, hsub]
    exact (Nat.div_eq_sub_div (Nat.zero_lt_of_lt hi) (Nat.le_succ_of_le hmax)).symm
  have hle := (Nat.mul_le_mul_right _ hi).trans (Nat.mul_div_le (2 ^ 64) n)
  rw [← hwidth, Nat.succ_mul] at hle
  have hw : 0 < partitionWidth n := Nat.succ_pos _
  unfold u64Max
  omega

/-- The prefix is divided by the width, except the last one. -/
theorem partitionFromPubkey_cases (hpos : 0 < n) :
    prefixFromPubkey k = u64Max ∧ partitionFromPubkey k n = n - 1 ∧
        n - 1 ≤ prefixFromPubkey k / partitionWidth n ∨
      prefixFromPubkey k ≠ u64Max ∧
        partitionFromPubkey k n = prefixFromPubkey k / partitionWidth n := by
  unfold partitionFromPubkey
  by_cases hlast : prefixFromPubkey k = u64Max
  · refine .inl ⟨hlast, ?_, ?_⟩
    · rw [hlast, if_neg (by decide : u64Max ≠ 0), if_pos rfl]
      split_ifs <;> omega
    · have hw : 0 < partitionWidth n := Nat.succ_pos _
      rw [hlast, Nat.le_div_iff_mul_le hw]
      exact mul_partitionWidth_le hmax (Nat.sub_one_lt_of_lt hpos)
  · refine .inr ⟨hlast, ?_⟩
    rw [if_neg hlast]
    split_ifs with hone hzero hdvd
    · have hle := prefixFromPubkey_le k
      rw [hone, Nat.div_eq_of_lt (hle.trans_lt (by decide))]
    · rw [hzero, Nat.zero_div]
    · rw [Nat.succ_div_of_dvd (Nat.dvd_of_mod_eq_zero hdvd), Nat.add_sub_cancel]
    · rw [Nat.succ_div_of_not_dvd (mt Nat.mod_eq_zero_of_dvd hdvd)]

/-- A range that was not cut down, by the quotient of the prefix. -/
theorem inPartition_iff (hse : s ≤ e) (hen : e < n) (hgap : s = e → s = 0) :
    InPartition k s e n ↔ (s < e → s + 1 ≤ prefixFromPubkey k / partitionWidth n) ∧
      (e + 1 ≠ n → prefixFromPubkey k / partitionWidth n < e + 1) := by
  have hrange : pubkeyRangeFromPartition s e n =
      some (firstOf (if s < e then (s + 1) * partitionWidth n else 0),
        lastOf (if e + 1 ≠ n then (e + 1) * partitionWidth n - 1 else u64Max)) := by
    unfold pubkeyRangeFromPartition
    rw [if_pos ⟨hse, by omega⟩]
    split_ifs <;> first | omega | rfl
  have hk := prefixFromPubkey_le k
  have hw : 0 < partitionWidth n := Nat.succ_pos _
  unfold InPartition
  simp only [hrange, Option.some.injEq, exists_eq_left']
  rw [Nat.le_div_iff_mul_le hw, Nat.div_lt_iff_lt_mul hw]
  refine and_congr ?_ ?_
  · split_ifs with hlt
    · rw [firstOf_le_iff (mul_partitionWidth_le hmax (by omega)), imp_iff_right hlt]
    · rw [firstOf_le_iff (Nat.zero_le _)]
      omega
  · split_ifs with hlast
    · have he := mul_partitionWidth_le hmax (by omega : e + 1 < n)
      have hpos := Nat.mul_pos (Nat.succ_pos e) hw
      rw [le_lastOf_iff (by omega), imp_iff_right hlast, Nat.le_sub_one_iff_lt hpos]
    · rw [le_lastOf_iff le_rfl]
      omega

theorem inPartition_self (hs : s ≠ 0) (hsn : s < n) : InPartition k s s n ↔ k = leftKey s n := by
  have hrange : pubkeyRangeFromPartition s s n = some (leftKey s n, leftKey s n) := by
    unfold pubkeyRangeFromPartition leftKey
    rw [if_pos ⟨le_rfl, hsn, hsn, by omega⟩, if_neg (by omega)]
    by_cases hlast : s + 1 = n
    · simp [hs, hlast]
    · have hle := mul_partitionWidth_le hmax (by omega : s + 1 < n)
      have hw : 0 < partitionWidth n := Nat.succ_pos _
      have hpos : 0 < (s + 1) * partitionWidth n := Nat.mul_pos (Nat.succ_pos s) hw
      have hne : (s + 1) * partitionWidth n - 1 ≠ u64Max := by omega
      simp [hs, hlast, hne]
  unfold InPartition
  simp only [hrange, Option.some.injEq, exists_eq_left']
  exact ⟨fun h => le_antisymm h.2 h.1, fun h => ⟨h.ge, h.le⟩⟩

/-- `partition_from_pubkey` finds the only range of the key exactly if the prefix is covered; and
the end indexes of a partition tell whether the key is in its range, except for the key that is left
in the range of a pair without a gap, and for the prefixes that are not covered in the last
range. -/
theorem partitionFromPubkey_exact (hpos : 0 < n) (k : Pubkey) :
    ((partitionFromPubkey k n < n ∧
        ∀ i, InPartition k (i - 1) i n ↔ i = partitionFromPubkey k n) ↔ PrefixCovered k n) ∧
    ∀ s e, s ≤ e → e < n →
      ((InPartition k s e n ↔ partitionFromPubkey k n ∈ getPartitionEndIndexes s e) ↔
        (s = e → s ≠ 0 → k ≠ leftKey s n) ∧ (s < e → e + 1 = n → PrefixCovered k n)) := by
  have hw : 0 < partitionWidth n := Nat.succ_pos _
  have hcases := partitionFromPubkey_cases (k := k) hmax hpos
  unfold PrefixCovered
  rw [← Nat.div_lt_iff_lt_mul hw]
  constructor
  · constructor
    · intro ⟨hlt, _⟩
      omega
    · intro hcond
      refine ⟨by omega, fun i => ?_⟩
      by_cases hi : i < n
      · rw [inPartition_iff hmax (Nat.sub_le i 1) hi (by omega)]
        omega
      · refine iff_of_false (fun h => hi h.bounds.2) ?_
        omega
  · intro s e hse hen
    rw [mem_getPartitionEndIndexes]
    by_cases hgap : s = e ∧ s ≠ 0
    · obtain ⟨rfl, hs⟩ := hgap
      have hnone : ¬ (s < partitionFromPubkey k n ∧ partitionFromPubkey k n ≤ s) := by omega
      rw [inPartition_self hmax hs hen]
      simp [hs, hnone]
    · rw [inPartition_iff hmax hse hen (by omega)]
      -- with one partition every prefix is in the first width
      have hone : n = 1 → prefixFromPubkey k / partitionWidth n < n := by
        rintro rfl
        exact (Nat.div_lt_iff_lt_mul hw).mpr ((prefixFromPubkey_le k).trans_lt (by decide))
      omega

end Partition

theorem partitionFromPubkey_exact_epoch :
    partitionFromPubkey (firstOf 5) 432000 < 432000 ∧ ∀ i,
      InPartition (firstOf 5) (i - 1) i 432000 ↔ i = partitionFromPubkey (firstOf 5) 432000 :=
  (partitionFromPubkey_exact (by decide) (by decide) (firstOf 5)).1.mpr (.inl (by decide +kernel))

/-- With the slots of an epoch as partitions the index of a key of the last range is the number of
partitions, and the range of a pair without a gap has a key. -/
theorem partition_out_of_range :
    partitionFromPubkey (firstOf (u64Max - 1)) 432000 = 432000 ∧
      InPartition (firstOf (u64Max - 1)) 431998 431999 432000 ∧
      InPartition (firstOf (2 ^ 63)) 1 1 4 ∧ getPartitionEndIndexes 1 1 = [] := by
  refine ⟨by decide +kernel, ⟨_, rfl, ?_, ?_⟩, ⟨_, rfl, ?_, ?_⟩, rfl⟩ <;> decide +kernel

end Hypergrid
