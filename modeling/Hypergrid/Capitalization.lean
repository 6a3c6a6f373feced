import Hypergrid.AccountsCache
import Hypergrid.AccountsHash

/-!
# Capitalization with remote accounts

The model of the end of `_calculate_accounts_hash_from_storages`: the lamports of all
items of remote keys are added up, the accounts are de-duplicated, and the first sum is
taken from the second.  Both sums are `u64`; the first one and the difference wrap.

The two sides are compared key by key.  The de-duplication counts the newest version of a
key, the loop over remote keys every version: `superseded` is what it takes too much.

* `calculateAccountsHash_eq` : the returned capitalization in closed form.
* `capitalization_eq_iff` : when it is the sum over the local keys.
* `exactCapitalization_iff` : when remote keys are also subtracted as often as counted.
-/

namespace Hypergrid
open Finset PriorityMerge AccountsHasher Option CalculateHashIntermediate

inductive CalcAccountsHashKind where
  | full
  | incremental
deriving DecidableEq

def CalcAccountsHashKind.zeroLamportAccounts : CalcAccountsHashKind → ZeroLamportAccounts
  | .full => .excluded
  | .incremental => .included

inductive AccountsHashKind where
  | full (hash : Hash)
  | incremental (hash : Hash)
deriving DecidableEq

/-- The hash functions: `blake3::hash` of a key and `compute_merkle_root_from_slices`. -/
structure HashFunctions where
  blake3 : Pubkey → Hash
  computeMerkleRoot : List (List Hash) → Hash

def pubkeyBinsForCalculatingHashes : Nat := 65536

def AccountsHasher.restOfHashCalculation (h : AccountsHasher)
    (computeMerkleRoot : List (List Hash) → Hash)
    (sortedDataByPubkey : List (List CalculateHashIntermediate)) : Option (Hash × UInt64) :=
  (h.deDupAccounts sortedDataByPubkey pubkeyBinsForCalculatingHashes).map
    (fun r => (computeMerkleRoot r.1, r.2))

namespace AccountsCache

/-- The loop over the items of remote keys. -/
def remoteLamports (c : AccountsCache)
    (cacheHashIntermediates : List (List CalculateHashIntermediate)) : UInt64 :=
  cacheHashIntermediates.foldl
    (fun lamports chis =>
      chis.foldl
        (fun lamports item =>
          if c.hasAccountFromRemote item.pubkey then lamports + item.lamports else lamports)
        lamports)
    0

/-- `_calculate_accounts_hash_from_storages`, from the sorted items of the storages on. -/
def calculateAccountsHashFromStorages (c : AccountsCache) (hf : HashFunctions)
    (kind : CalcAccountsHashKind)
    (cacheHashIntermediates : List (List CalculateHashIntermediate)) :
    Option (AccountsHashKind × UInt64) :=
  let accountsHasher : AccountsHasher :=
    { zeroLamportAccounts := kind.zeroLamportAccounts, blake3 := hf.blake3 }
  let lamports := c.remoteLamports cacheHashIntermediates
  (accountsHasher.restOfHashCalculation hf.computeMerkleRoot cacheHashIntermediates).map
    (fun r =>
      let accountsHash :=
        match kind with
        | .full => AccountsHashKind.full r.1
        | .incremental => AccountsHashKind.incremental r.1
      (accountsHash, r.2 - lamports))

end AccountsCache

namespace Capitalization

variable (c : AccountsCache) (groups : List (List CalculateHashIntermediate))

def latestLamports (k : Pubkey) : Nat :=
  lamportsOf (newest CalculateHashIntermediate.pubkey k groups.flatten).toList

/-- Lamports of the versions of a key that a later one replaces. -/
def supersededLamports (k : Pubkey) : Nat :=
  lamportsOf (versions CalculateHashIntermediate.pubkey k groups.flatten).dropLast

/-- The items that the loop over remote keys adds up. -/
def remoteItems : List CalculateHashIntermediate :=
  groups.flatten.filter (fun item => c.hasAccountFromRemote item.pubkey)

def hashBinner : PubkeyBinCalculator24 := { shiftBits := 8 }

theorem new_hashBinner :
    PubkeyBinCalculator24.new pubkeyBinsForCalculatingHashes = some hashBinner :=
  rfl

/-- How often the loop over remote keys subtracts an item of a key. -/
def timesSubtracted (k : Pubkey) : Nat :=
  (versions CalculateHashIntermediate.pubkey k (remoteItems c groups)).length

/-- How often `de_dup_accounts` counts an item of a key. -/
def timesCounted (k : Pubkey) : Nat :=
  (versions CalculateHashIntermediate.pubkey k
    (countedItems hashBinner pubkeyBinsForCalculatingHashes groups)).length

variable {c groups}

section Sums

theorem remoteLamports_eq :
    c.remoteLamports groups = UInt64.ofNat (lamportsOf (remoteItems c groups)) := by
  have hitems (l : List CalculateHashIntermediate) (sum : UInt64) :
      l.foldl (fun lamports item =>
          if c.hasAccountFromRemote item.pubkey then lamports + item.lamports else lamports)
          sum =
        sum + UInt64.ofNat
          (lamportsOf (l.filter (fun item => c.hasAccountFromRemote item.pubkey))) := by
    induction l generalizing sum with
    | nil => simp [lamportsOf]
    | cons x l ih =>
      rw [List.foldl_cons, ih, List.filter_cons]
      split_ifs
      · simp only [lamportsOf, List.map_cons, List.sum_cons, UInt64.ofNat_add, UInt64.ofNat_toNat]
        rw [UInt64.add_assoc]
      · rfl
  have hgroups (sum : UInt64) :
      groups.foldl (fun lamports chis => chis.foldl (fun lamports item =>
          if c.hasAccountFromRemote item.pubkey then lamports + item.lamports else lamports)
          lamports) sum =
        sum + UInt64.ofNat (lamportsOf (remoteItems c groups)) := by
    rw [remoteItems, ← hitems, List.foldl_flatten]
  rw [AccountsCache.remoteLamports, hgroups, UInt64.zero_add]

theorem lamportsOf_versions (k : Pubkey) :
    lamportsOf (versions pubkey k groups.flatten) =
      supersededLamports groups k + latestLamports groups k := by
  unfold supersededLamports latestLamports newest
  generalize versions pubkey k groups.flatten = l
  rcases List.eq_nil_or_concat l with rfl | ⟨init, last, rfl⟩
  · rfl
  · simp [lamportsOf]

theorem lamportsOf_remoteItems :
    lamportsOf (remoteItems c groups) =
      (∑ k with c.hasAccountFromRemote k = true, supersededLamports groups k) +
        ∑ k with c.hasAccountFromRemote k = true, latestLamports groups k := by
  rw [← sum_add_distrib, remoteItems, lamportsOf,
    sum_filter_eq_sum_versions _ c.hasAccountFromRemote]
  exact sum_congr rfl (fun k _ => lamportsOf_versions k)

theorem sum_latestLamports (chosen : Pubkey → Prop) [DecidablePred chosen] :
    ∑ k with chosen k, latestLamports groups k =
      ∑ k ∈ (groups.flatten.map pubkey).toFinset with chosen k, latestLamports groups k := by
  symm
  refine sum_subset (filter_subset_filter _ (subset_univ _)) ?_
  intro k hk hno
  have hnone : newest pubkey k groups.flatten = none := by
    refine newest_eq_none_iff.mpr ?_
    rintro y hy rfl
    refine hno (mem_filter.mpr ⟨?_, (mem_filter.mp hk).2⟩)
    exact List.mem_toFinset.mpr (List.mem_map_of_mem hy)
  rw [latestLamports, hnone]
  rfl

variable (hsorted : ∀ g ∈ groups, SortedByKey g)
include hsorted

theorem versions_countedItems (k : Pubkey) :
    versions pubkey k
        (countedItems hashBinner pubkeyBinsForCalculatingHashes groups) =
      (newest pubkey k groups.flatten).toList := by
  obtain ⟨hkeys, hmem⟩ := countedItems_spec new_hashBinner hsorted
  exact versions_eq_newest (List.pairwise_map.mpr (hkeys.imp ne_of_lt)) hmem k

theorem lamportsOf_countedItems :
    lamportsOf (countedItems hashBinner pubkeyBinsForCalculatingHashes groups) =
      ∑ k, latestLamports groups k := by
  rw [lamportsOf, @sum_map_eq_sum_versions _ _ _ pubkey]
  refine sum_congr rfl ?_
  intro k _
  rw [versions_countedItems hsorted]
  rfl

end Sums

section Exact
variable (c groups) in
/-- The returned capitalization is the sum over the keys that are not remote. -/
def LocalCapitalization (hf : HashFunctions) (kind : CalcAccountsHashKind) : Prop :=
  ∃ hash capitalization,
    c.calculateAccountsHashFromStorages hf kind groups = some (hash, capitalization) ∧
      capitalization.toNat =
        ∑ k with c.hasAccountFromRemote k = false, latestLamports groups k

variable (c groups) in
/-- What the hash calculation should do about remote keys. -/
structure ExactCapitalization (hf : HashFunctions) (kind : CalcAccountsHashKind) : Prop where
  capitalization : LocalCapitalization c groups hf kind
  noUnderflow :
    ∃ hash total,
      AccountsHasher.restOfHashCalculation
        { zeroLamportAccounts := kind.zeroLamportAccounts, blake3 := hf.blake3 }
        hf.computeMerkleRoot groups = some (hash, total) ∧
      c.remoteLamports groups ≤ total
  times : ∀ k, c.hasAccountFromRemote k = true →
    timesSubtracted c groups k = timesCounted groups k

variable {hf : HashFunctions} {kind : CalcAccountsHashKind}

theorem sum_latestLamports_split :
    ∑ k, latestLamports groups k =
      (∑ k with c.hasAccountFromRemote k = false, latestLamports groups k) +
        ∑ k with c.hasAccountFromRemote k = true, latestLamports groups k := by
  rw [← sum_filter_add_sum_filter_not univ
    (fun k => c.hasAccountFromRemote k = false)]
  simp

theorem timesSubtracted_eq {k : Pubkey} (hk : c.hasAccountFromRemote k = true) :
    timesSubtracted c groups k = (versions pubkey k groups.flatten).length := by
  rw [timesSubtracted, remoteItems, versions_filter c.hasAccountFromRemote, if_pos hk]

theorem supersededLamports_of_length_le {k : Pubkey}
    (h : (versions pubkey k groups.flatten).length ≤ 1) :
    supersededLamports groups k = 0 := by
  have hnil : (versions pubkey k groups.flatten).dropLast = [] := by
    rw [← List.length_eq_zero_iff, List.length_dropLast]
    omega
  rw [supersededLamports, hnil]
  rfl

variable (hsorted : ∀ g ∈ groups, SortedByKey g)
include hsorted

theorem timesCounted_eq (k : Pubkey) :
    timesCounted groups k = min 1 (versions pubkey k groups.flatten).length := by
  rw [timesCounted, versions_countedItems hsorted, newest]
  generalize versions pubkey k groups.flatten = l
  rcases List.eq_nil_or_concat l with rfl | ⟨init, last, rfl⟩
  · rfl
  · simp

theorem restOfHashCalculation_eq (h : AccountsHasher)
    (computeMerkleRoot : List (List Hash) → Hash) :
    (h.restOfHashCalculation computeMerkleRoot groups).map Prod.snd =
      if ∑ k, latestLamports groups k ≤ u64Max then
        some (UInt64.ofNat (∑ k, latestLamports groups k))
      else none := by
  rw [restOfHashCalculation, deDupAccounts_eq new_hashBinner, lamportsOf_countedItems hsorted]
  split_ifs <;> rfl

theorem calculateAccountsHash_eq :
    (c.calculateAccountsHashFromStorages hf kind groups).map Prod.snd =
      if ∑ k, latestLamports groups k ≤ u64Max then
        some (UInt64.ofNat (∑ k, latestLamports groups k) -
          UInt64.ofNat (lamportsOf (remoteItems c groups)))
      else none := by
  have hrest := restOfHashCalculation_eq hsorted
    { zeroLamportAccounts := kind.zeroLamportAccounts, blake3 := hf.blake3 }
    hf.computeMerkleRoot
  rw [AccountsCache.calculateAccountsHashFromStorages, remoteLamports_eq]
  generalize restOfHashCalculation _ _ groups = rest at hrest ⊢
  split_ifs at hrest ⊢
  · obtain ⟨r, rfl, hr⟩ := map_eq_some_iff.mp hrest
    rw [← hr]
    rfl
  · rw [map_eq_none_iff] at hrest
    rw [hrest]
    rfl

/-- The capitalization is the sum over the local keys exactly if the total fits and what
the loop over remote keys takes too much is a multiple of the range of `u64`. -/
theorem capitalization_eq_iff :
    LocalCapitalization c groups hf kind ↔ ∑ k, latestLamports groups k ≤ u64Max ∧
        2 ^ 64 ∣ ∑ k with c.hasAccountFromRemote k = true, supersededLamports groups k := by
  have hmap : LocalCapitalization c groups hf kind ↔ ∃ capitalization,
        (c.calculateAccountsHashFromStorages hf kind groups).map Prod.snd = some capitalization ∧
        capitalization.toNat =
          ∑ k with c.hasAccountFromRemote k = false, latestLamports groups k := by
    constructor
    · rintro ⟨hash, capitalization, heq, hsum⟩
      exact ⟨capitalization, by rw [heq, map_some], hsum⟩
    · rintro ⟨_, heq, hsum⟩
      obtain ⟨r, hr, rfl⟩ := map_eq_some_iff.mp heq
      exact ⟨r.1, r.2, hr, hsum⟩
  rw [hmap, calculateAccountsHash_eq hsorted, lamportsOf_remoteItems,
    @sum_latestLamports_split c groups]
  generalize ∑ k with c.hasAccountFromRemote k = false, latestLamports groups k = localSum
  generalize ∑ k with c.hasAccountFromRemote k = true, latestLamports groups k = remoteSum
  generalize ∑ k with c.hasAccountFromRemote k = true, supersededLamports groups k = extra
  by_cases hfits : localSum + remoteSum ≤ u64Max
  · simp only [hfits, if_true, true_and, some.injEq, exists_eq_left']
    rw [UInt64.toNat_sub, toNat_ofNat_le hfits, UInt64.toNat_ofNat']
    unfold u64Max at hfits
    omega
  · simp [hfits]

/-- The hash calculation is exact about remote keys exactly if the total of the latest
lamports fits in `u64` and no remote key has two items in the input. -/
theorem exactCapitalization_iff :
    (ExactCapitalization c groups hf kind ↔
      ∑ k, latestLamports groups k ≤ u64Max ∧
        ∀ k, c.hasAccountFromRemote k = true →
          (versions CalculateHashIntermediate.pubkey k groups.flatten).length ≤ 1) ∧
    (LocalCapitalization c groups hf kind ↔
      ∑ k, latestLamports groups k ≤ u64Max ∧
        2 ^ 64 ∣ ∑ k with c.hasAccountFromRemote k = true, supersededLamports groups k) := by
  refine ⟨?_, capitalization_eq_iff hsorted⟩
  constructor
  · rintro ⟨hcap, _, htimes⟩
    refine ⟨((capitalization_eq_iff hsorted).mp hcap).1, ?_⟩
    intro k hk
    have := htimes k hk
    rw [timesSubtracted_eq hk, timesCounted_eq hsorted] at this
    omega
  · rintro ⟨hfits, hone⟩
    have hzero : ∑ k with c.hasAccountFromRemote k = true, supersededLamports groups k = 0 := by
      refine sum_eq_zero ?_
      intro k hk
      exact supersededLamports_of_length_le (hone k (mem_filter.mp hk).2)
    refine ⟨(capitalization_eq_iff hsorted).mpr ⟨hfits, by rw [hzero]; exact dvd_zero _⟩, ?_, ?_⟩
    · have hrest := restOfHashCalculation_eq hsorted
        { zeroLamportAccounts := kind.zeroLamportAccounts, blake3 := hf.blake3 }
        hf.computeMerkleRoot
      rw [if_pos hfits] at hrest
      obtain ⟨⟨hash, total⟩, heq, htotal⟩ := map_eq_some_iff.mp hrest
      refine ⟨hash, total, heq, ?_⟩
      -- with one version each, the remote keys' items are part of the total
      have hle : lamportsOf (remoteItems c groups) ≤ ∑ k, latestLamports groups k := by
        rw [lamportsOf_remoteItems, hzero, @sum_latestLamports_split c groups]
        omega
      rw [remoteLamports_eq, UInt64.le_iff_toNat_le, toNat_ofNat_le (le_trans hle hfits)]
      change total = _ at htotal
      rw [htotal, toNat_ofNat_le hfits]
      exact hle
    · intro k hk
      rw [timesSubtracted_eq hk, timesCounted_eq hsorted]
      have := hone k hk
      omega

end Exact

def exampleRemoteKey : Pubkey := .ofNat (7 ^ 90)

def exampleLocalKey : Pubkey := .ofNat (5 ^ 108)

def exampleRpc : RpcAccount :=
  { lamports := 7, data := [], owner := systemProgramId, executable := false, rentEpoch := 0 }

def exampleCache : AccountsCache :=
  AccountsCache.loadAccountsFromRemote
    { cache := ∅
      totalSize := 0
      remoteLoader := RemoteAccountLoader.new { sonicProgramId := [] } }
    (fun _ => [some exampleRpc]) [exampleRemoteKey]

def exampleItem (pubkey : Pubkey) (lamports : UInt64) : CalculateHashIntermediate :=
  { hash := ⟨0⟩, lamports, pubkey }

def exampleHashes : HashFunctions :=
  { blake3 := fun _ => ⟨0⟩, computeMerkleRoot := fun _ => ⟨0⟩ }

def exampleGroups : List (List CalculateHashIntermediate) :=
  [[exampleItem exampleLocalKey 40, exampleItem exampleRemoteKey 7],
    [exampleItem exampleLocalKey 100]]

def exampleRewritten : List (List CalculateHashIntermediate) :=
  [[exampleItem exampleLocalKey 100, exampleItem exampleRemoteKey 5],
    [exampleItem exampleRemoteKey 7]]

theorem exactCapitalization_exampleGroups :
    (∀ g ∈ exampleGroups, SortedByKey g) ∧
      ExactCapitalization exampleCache exampleGroups exampleHashes .full := by
  have hsorted : ∀ g ∈ exampleGroups, SortedByKey g := by
    unfold SortedByKey
    decide
  refine ⟨hsorted, (exactCapitalization_iff hsorted).1.mpr ⟨?_, ?_⟩⟩
  · rw [← filter_true univ, sum_latestLamports]
    decide
  · have hitems : ∀ item ∈ exampleGroups.flatten,
        exampleCache.hasAccountFromRemote item.pubkey = true →
        (versions pubkey item.pubkey
          exampleGroups.flatten).length ≤ 1 := by
      decide
    intro k hk
    by_contra hlen
    obtain ⟨item, hitem⟩ := List.exists_mem_of_length_pos (by omega :
      0 < (versions pubkey k exampleGroups.flatten).length)
    obtain ⟨hmem, rfl⟩ := mem_versions.mp hitem
    exact hlen (hitems item hmem hk)

/-- The latest versions of the two keys have 100 and 7 lamports, and both versions of the
remote key are subtracted: 95 is returned, and not 100. -/
theorem capitalization_of_rewritten_remote_key :
    (∀ g ∈ exampleRewritten, SortedByKey g) ∧
      (exampleCache.calculateAccountsHashFromStorages exampleHashes .full
        exampleRewritten).map Prod.snd = some 95 ∧
      ∑ k with exampleCache.hasAccountFromRemote k = false,
        latestLamports exampleRewritten k = 100 ∧
      ¬ ExactCapitalization exampleCache exampleRewritten exampleHashes .full := by
  have hsorted : ∀ g ∈ exampleRewritten, SortedByKey g := by
    unfold SortedByKey
    decide
  have hlocal : ∑ k with exampleCache.hasAccountFromRemote k = false,
      latestLamports exampleRewritten k = 100 := by
    rw [sum_latestLamports]
    decide
  have hreturned : (exampleCache.calculateAccountsHashFromStorages exampleHashes .full
      exampleRewritten).map Prod.snd = some 95 := by
    rw [calculateAccountsHash_eq hsorted, ← filter_true univ, sum_latestLamports]
    decide
  refine ⟨hsorted, hreturned, hlocal, ?_⟩
  rintro ⟨⟨hash, capitalization, heq, hsum⟩, _, _⟩
  rw [heq] at hreturned
  cases hreturned
  rw [hlocal] at hsum
  revert hsum
  decide

end Capitalization
end Hypergrid
