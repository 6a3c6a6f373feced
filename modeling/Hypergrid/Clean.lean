import Hypergrid.FlushRoots
import Hypergrid.Lib.Worklist

/-!
# Cleaning the accounts

The model of `clean_accounts` of `accounts-db/src/accounts_db.rs`, run alone and with a clean
bound, and of the functions it calls: the choice of the candidates, the purge of the older
root entries, the counts of the stores as if every zero-lamport candidate were purged, the
worklist of `calc_delete_dependencies`, the filter for incremental snapshots, and the removal
of the reclaimed accounts and of the slots that die with them.

A failed assertion, a missing value under an `unwrap` and an underflow are `none`.  The
iteration orders of the hash maps are a parameter, `HashOrder`.  A key whose slot list is empty
is not in the index.
-/

namespace Hypergrid

/-- The database, with what `clean_accounts` reads and writes beside it. -/
structure CleanDb extends FlushDb where
  /-- the reference counts of the index entries -/
  refCount : Pubkey → Nat
  /-- `AccountStorageEntry::count` -/
  count : Slot → Nat
  dirtyStores : List (Slot × AccountStorageEntry)
  uncleanedPubkeys : List (Slot × List Pubkey)
  zeroLamportAccountsToPurgeAfterFullSnapshot : List (Slot × Pubkey)

/-- The orders in which the elements of the hash maps and sets come. -/
structure HashOrder where
  keys : List Pubkey → List Pubkey
  keys_perm : ∀ l, (keys l).Perm l
  next : Finset Slot → Slot
  next_mem : ∀ s : Finset Slot, s.Nonempty → next s ∈ s

/-- A candidate of `purges_zero_lamports`. -/
structure Purge where
  accountInfos : List (Slot × AccountInfo)
  refCount : Nat

structure ReclaimResult where
  purgedAccountSlots : Finset (Pubkey × Slot)
  reclaimedOffsets : Finset (Slot × Nat)

def ReclaimResult.default : ReclaimResult := ⟨∅, ∅⟩

/-- `AccountInfo::offset`, where a cached account has the sentinel offset. -/
def AccountInfo.offset (info : AccountInfo) : Nat :=
  match info.storageLocation with
  | .appendVec _ offset => offset
  | .cached => (2 ^ 31 - 1) * 8

/-- `AccountMapEntryInner::unref`: the count wraps around. -/
def unref (refCount : Nat) : Nat := if refCount = 0 then u64Max else refCount - 1

namespace CleanDb

variable (s : CleanDb)
variable (maxCleanRoot : Slot) (maxSlotInclusive : Slot) (k : Pubkey)

abbrev slotList (k : Pubkey) : List (Slot × AccountInfo) := s.db.accountsIndex.slotList k

abbrev aliveRoots : Finset Slot := s.db.accountsIndex.aliveRoots

/-- The bound of a clean, which a running scan may lower. -/
def cleanBound (maxCleanRootInclusive : Slot) : Slot :=
  (s.maxCleanRoot (some maxCleanRootInclusive)).getD maxCleanRootInclusive

/-- The keys of `dirty_stores` and `uncleaned_pubkeys` up to the bound. -/
def dirtyKeys : List Pubkey :=
  let dirtyStores := s.dirtyStores.filter (fun x => decide (x.1 ≤ maxSlotInclusive))
  let deltaKeys := s.uncleanedPubkeys.filter (fun x => decide (x.1 ≤ maxSlotInclusive))
  (dirtyStores.flatMap (fun x => x.2.accounts.map Prod.fst) ++
    deltaKeys.flatMap Prod.snd).dedup

/-- A zero-lamport account that an earlier clean has kept is a candidate again. -/
def purgesLater (lastFullSnapshotSlot : Option Slot) (x : Slot × Pubkey) : Bool :=
  lastFullSnapshotSlot.any (fun f => decide (x.1 ≤ maxSlotInclusive) && decide (x.1 ≤ f))

/-- The keys that `construct_candidate_clean_keys` returns. -/
def candidates (lastFullSnapshotSlot : Option Slot) : List Pubkey :=
  s.dirtyKeys maxSlotInclusive ++
    (s.zeroLamportAccountsToPurgeAfterFullSnapshot.filter
      (purgesLater maxSlotInclusive lastFullSnapshotSlot)).map Prod.snd

/-- `construct_candidate_clean_keys`, and the sort of its result. -/
def constructCandidateCleanKeys (order : HashOrder) (maxSlotInclusive : Slot)
    (lastFullSnapshotSlot : Option Slot) : Option (List Pubkey × CleanDb) :=
  if lastFullSnapshotSlot.isNone && !s.zeroLamportAccountsToPurgeAfterFullSnapshot.isEmpty then
    none
  else
    some (order.keys (s.candidates maxSlotInclusive lastFullSnapshotSlot),
      { s with
        dirtyStores := s.dirtyStores.filter (fun x => decide (maxSlotInclusive < x.1))
        uncleanedPubkeys := s.uncleanedPubkeys.filter (fun x => decide (maxSlotInclusive < x.1))
        zeroLamportAccountsToPurgeAfterFullSnapshot :=
          s.zeroLamportAccountsToPurgeAfterFullSnapshot.filter
            (fun x => !purgesLater maxSlotInclusive lastFullSnapshotSlot x) })

def getRootedEntries (slice : List (Slot × AccountInfo)) (maxInclusive : Slot) :
    List (Slot × AccountInfo) :=
  slice.filter (fun e => decide (e.1 ≤ maxInclusive) && decide (e.1 ∈ s.aliveRoots))

/-- The scan of the index for a candidate: its entry of `purges_zero_lamports`. -/
def scanZeroLamports : Option Purge :=
  (s.db.accountsIndex.get k ∅ (some maxCleanRoot)).bind (fun e =>
    if e.2.isZeroLamport then
      some ⟨s.getRootedEntries (s.slotList k) maxCleanRoot, s.refCount k⟩
    else none)

/-- The scan of the index for a candidate: whether it goes to `purges_old_accounts`. -/
def scanOldAccounts : Bool :=
  if s.slotList k = [] then false
  else (s.db.accountsIndex.get k ∅ (some maxCleanRoot)).all
    (fun e => decide (e.1 ∈ s.uncleanedRoots))

def getNewestRootInSlotList (slice : List (Slot × AccountInfo)) (maxAllowedRoot : Slot) : Slot :=
  slice.foldl (fun maxRoot e =>
    if e.1 ≤ maxAllowedRoot ∧ maxRoot < e.1 ∧ e.1 ∈ s.aliveRoots then e.1 else maxRoot) 0

def canPurgeOlderEntries (maxCleanRootExclusive newestRootInSlotList slot : Slot) : Bool :=
  decide (slot < maxCleanRootExclusive) && decide (slot ≠ newestRootInSlotList)

/-- The `retain` of a slot list that gives the entries it drops to the reclaims. -/
def retainEntries (shouldPurge : Slot × AccountInfo → Bool) : CleanDb × List (Slot × AccountInfo) :=
  ({ s with
      db := { s.db with
        accountsIndex := { s.db.accountsIndex with
          slotList := Function.update s.db.accountsIndex.slotList k
            ((s.slotList k).filter (fun e => !shouldPurge e)) } } },
    (s.slotList k).filter shouldPurge)

def removeIfSlotListEmpty : CleanDb :=
  if s.slotList k = [] then { s with refCount := Function.update s.refCount k 0 } else s

/-- `purge_older_root_entries` decides to drop the entry. -/
def purgesOlder (e : Slot × AccountInfo) : Bool :=
  canPurgeOlderEntries maxCleanRoot (s.getNewestRootInSlotList (s.slotList k) maxCleanRoot)
    e.1 && !e.2.storageLocation.isCached

/-- `clean_rooted_entries`, with the reclaims and the removed keys so far. -/
def cleanRootedEntries (x : CleanDb × List (Slot × AccountInfo) × Finset Pubkey) (k : Pubkey) :
    CleanDb × List (Slot × AccountInfo) × Finset Pubkey :=
  let r := x.1.retainEntries k (x.1.purgesOlder maxCleanRoot k)
  (r.1.removeIfSlotListEmpty k, x.2.1 ++ r.2,
    if r.1.slotList k = [] then insert k x.2.2 else x.2.2)

/-- One account of `remove_dead_accounts`, with the offsets and the dead slots so far. -/
def removeDeadAccount (x : CleanDb × Finset (Slot × Nat) × Finset Slot)
    (e : Slot × AccountInfo) : Option (CleanDb × Finset (Slot × Nat) × Finset Slot) :=
  match e.2.storageLocation with
  | .cached => none
  | .appendVec storeId offset =>
    let offsets := insert (e.1, offset) x.2.1
    match x.1.db.getAccountStorageEntry e.1 storeId with
    | none => some (x.1, offsets, x.2.2)
    | some store =>
      if store.accounts[offset]?.isNone || x.1.count e.1 == 0 then none
      else
        let count := x.1.count e.1 - 1
        let s := { x.1 with count := Function.update x.1.count e.1 count }
        if count = 0 then
          some ({ s with
              dirtyStores := (e.1, store) :: s.dirtyStores.filter (fun y => y.1 ≠ e.1) },
            offsets, insert e.1 x.2.2)
        else some (s, offsets, x.2.2)

def removeDeadAccounts (reclaims : List (Slot × AccountInfo)) :
    Option (CleanDb × Finset (Slot × Nat) × Finset Slot) := do
  let (s, offsets, deadSlots) ← reclaims.foldlM removeDeadAccount (s, ∅, ∅)
  return (s, offsets,
    deadSlots.filter (fun slot => (s.db.storage slot).isNone || s.count slot == 0))

/-- The keys of the accounts in the storages of the dead slots. -/
def purgedSlotPubkeys (deadSlots : Finset Slot) : Finset (Slot × Pubkey) :=
  deadSlots.biUnion (fun slot =>
    ((s.db.storage slot).elim [] (fun e => e.accounts.map (fun x => (slot, x.1)))).toFinset)

/-- `process_dead_slots`: every account of a dead slot is unreferenced, and the slot is no
longer a root and has no storage. -/
def processDeadSlots (deadSlots : Finset Slot) (removed : Finset Pubkey) : CleanDb :=
  { s with
    db := { s.db with
      accountsIndex := { s.db.accountsIndex with
        aliveRoots := s.db.accountsIndex.aliveRoots \ deadSlots }
      storage := fun slot => if slot ∈ deadSlots then none else s.db.storage slot }
    refCount := fun k =>
      if k ∈ removed ∨ s.slotList k = [] then s.refCount k
      else unref^[((s.purgedSlotPubkeys deadSlots).filter (fun x => x.2 = k)).card]
        (s.refCount k)
    uncleanedRoots := s.uncleanedRoots \ deadSlots }

def handleReclaims (reclaims : List (Slot × AccountInfo)) (removed : Finset Pubkey) :
    Option (CleanDb × ReclaimResult) :=
  if reclaims = [] then some (s, .default)
  else do
    let (s, reclaimedOffsets, deadSlots) ← s.removeDeadAccounts reclaims
    return (s.processDeadSlots deadSlots removed,
      ⟨(s.purgedSlotPubkeys deadSlots).image Prod.swap, reclaimedOffsets⟩)

def cleanAccountsOlderThanRoot (purges : List Pubkey) :
    Option (CleanDb × ReclaimResult × Finset Pubkey) := do
  let (s, reclaims, removed) := purges.foldl (cleanRootedEntries maxCleanRoot) (s, [], ∅)
  let (s, r) ← s.handleReclaims reclaims removed
  return (s, r, removed)

def resetUncleanedRoots : CleanDb :=
  { s with uncleanedRoots := s.uncleanedRoots.filter (fun root => maxCleanRoot < root) }

end CleanDb

abbrev StoreCounts := Slot → Option (Nat × Finset Pubkey)

def CleanDb.countStore (s : CleanDb) (r : ReclaimResult) (k : Pubkey)
    (x : StoreCounts × List (Slot × AccountInfo)) (e : Slot × AccountInfo) :
    Option (StoreCounts × List (Slot × AccountInfo)) :=
  if (k, e.1) ∈ r.purgedAccountSlots ∨ (e.1, e.2.offset) ∈ r.reclaimedOffsets then some x
  else
    match x.1 e.1 with
    | some (count, keys) =>
      if count = 0 then none
      else some (Function.update x.1 e.1 (some (count - 1, insert k keys)), x.2 ++ [e])
    | none =>
      match e.2.storageLocation with
      | .cached => none
      | .appendVec storeId _ =>
        if (s.db.getAccountStorageEntry e.1 storeId).isNone || s.count e.1 == 0 then none
        else some (Function.update x.1 e.1 (some (s.count e.1 - 1, {k})), x.2 ++ [e])

def CleanDb.countStores (s : CleanDb) (r : ReclaimResult)
    (x : StoreCounts × List (Pubkey × Purge)) (p : Pubkey × Purge) :
    Option (StoreCounts × List (Pubkey × Purge)) := do
  let refCount :=
    if p.1 ∈ r.purgedAccountSlots.image Prod.fst then s.refCount p.1 else p.2.refCount
  let (counts, accountInfos) ← p.2.accountInfos.foldlM (s.countStore r p.1) (x.1, [])
  return (counts, x.2 ++ [(p.1, ⟨accountInfos, refCount⟩)])

def Purge.slots (p : Purge) : Finset Slot := (p.accountInfos.map Prod.fst).toFinset

/-- The candidate can be deleted from all stores it is in. -/
def Purge.allStoresBeingDeleted (p : Purge) (counts : StoreCounts) : Bool :=
  decide (p.accountInfos.length = p.refCount) &&
    p.accountInfos.all (fun e => (counts e.1).any (fun c => c.1 == 0))

/-- The visit of a store that can not be deleted: its count is removed, and the stores of its
keys can not be deleted either. -/
def visitStore (purges : List (Pubkey × Purge)) (counts : StoreCounts) (slot : Slot) :
    Option (StoreCounts × Finset Slot) :=
  match counts slot with
  | none => some (counts, ∅)
  | some (_, keys) =>
    if ∀ k ∈ keys, (purges.lookup k).isSome = true then
      some (Function.update counts slot none,
        keys.biUnion (fun k => (purges.lookup k).elim ∅ Purge.slots))
    else none

/-- One candidate of `calc_delete_dependencies`, with the slots that are counted already. -/
def dependencyStep (order : HashOrder) (purges : List (Pubkey × Purge))
    (x : StoreCounts × Finset Slot) (p : Pubkey × Purge) :
    Option (StoreCounts × Finset Slot) :=
  if p.2.allStoresBeingDeleted x.1 then some x
  else
    Worklist.run order.next (visitStore purges)
      (purges.flatMap (fun q => q.2.accountInfos.map Prod.fst)).toFinset.card
      x.1 x.2 (p.2.slots \ x.2)

def calcDeleteDependencies (order : HashOrder) (purges : List (Pubkey × Purge))
    (counts : StoreCounts) : Option StoreCounts := do
  let (counts, _) ← purges.foldlM (dependencyStep order purges) (counts, ∅)
  return counts

/-- `max_by_key` of the slots. -/
def maxBySlot : List (Slot × AccountInfo) → Option (Slot × AccountInfo)
  | [] => none
  | e :: es => some (es.foldl (fun best e => if best.1 ≤ e.1 then e else best) e)

/-- One candidate of `filter_zero_lamport_clean_for_incremental_snapshots`. -/
def filterStep (maxCleanRoot : Slot) (lastFullSnapshotSlot : Option Slot) (counts : StoreCounts)
    (x : List (Pubkey × Purge) × List (Slot × Pubkey)) (p : Pubkey × Purge) :
    Option (List (Pubkey × Purge) × List (Slot × Pubkey)) :=
  if p.2.accountInfos.all (fun e => (counts e.1).any (fun c => c.1 == 0)) then
    if lastFullSnapshotSlot.getD u64Max < maxCleanRoot then
      match maxBySlot p.2.accountInfos with
      | none => some (x.1 ++ [p], x.2)
      | some (slot, info) =>
        if !info.isZeroLamport then none
        else if lastFullSnapshotSlot.any (fun f => decide (f < slot)) then
          some (x.1, x.2.insert (slot, p.1))
        else some (x.1 ++ [p], x.2)
    else some (x.1 ++ [p], x.2)
  else some x

/-- `filter_zero_lamport_clean_for_incremental_snapshots`. -/
def filterZeroLamportClean (maxCleanRoot : Slot) (lastFullSnapshotSlot : Option Slot)
    (counts : StoreCounts) (purges : List (Pubkey × Purge)) (later : List (Slot × Pubkey)) :
    Option (List (Pubkey × Purge) × List (Slot × Pubkey)) :=
  if lastFullSnapshotSlot.isNone ∧ lastFullSnapshotSlot.getD u64Max < maxCleanRoot then none
  else purges.foldlM (filterStep maxCleanRoot lastFullSnapshotSlot counts) ([], later)

namespace CleanDb

/-- `purge_exact`, with the reclaims and the dead keys so far. -/
def purgeExact (x : CleanDb × List (Slot × AccountInfo) × List Pubkey) (p : Pubkey × Purge) :
    CleanDb × List (Slot × AccountInfo) × List Pubkey :=
  let r := x.1.retainEntries p.1 (fun e => decide (e.1 ∈ p.2.slots))
  (r.1, x.2.1 ++ r.2, if r.1.slotList p.1 = [] then p.1 :: x.2.2 else x.2.2)

def purgeKeysExact (s : CleanDb) (purges : List (Pubkey × Purge)) :
    CleanDb × List (Slot × AccountInfo) × Finset Pubkey :=
  let (s, reclaims, deadKeys) := purges.foldl purgeExact (s, [], [])
  (deadKeys.foldl removeIfSlotListEmpty s, reclaims, deadKeys.toFinset)

/-- `clean_accounts` with a clean bound. -/
def cleanAccounts (order : HashOrder) (maxCleanRootInclusive : Slot)
    (lastFullSnapshotSlot : Option Slot) (s : CleanDb) : Option CleanDb := do
  let maxCleanRoot := s.cleanBound maxCleanRootInclusive
  let (pubkeys, s) ←
    s.constructCandidateCleanKeys order maxCleanRoot lastFullSnapshotSlot
  let purgesZeroLamports := (order.keys pubkeys.dedup).filterMap (fun k =>
    (s.scanZeroLamports maxCleanRoot k).map (fun p => (k, p)))
  let purgesOldAccounts := pubkeys.filter (s.scanOldAccounts maxCleanRoot)
  let (s, r, removed) ← s.cleanAccountsOlderThanRoot maxCleanRoot purgesOldAccounts
  let s := s.resetUncleanedRoots maxCleanRoot
  let (counts, purges) ← purgesZeroLamports.foldlM (s.countStores r) (fun _ => none, [])
  let counts ← calcDeleteDependencies order purges counts
  let (purges, later) ← filterZeroLamportClean maxCleanRoot lastFullSnapshotSlot counts purges
    s.zeroLamportAccountsToPurgeAfterFullSnapshot
  let s := { s with zeroLamportAccountsToPurgeAfterFullSnapshot := later }
  let (s, reclaims, removed') := s.purgeKeysExact purges
  let (s, _) ← s.handleReclaims reclaims (removed ∪ removed')
  return s

end CleanDb
end Hypergrid
