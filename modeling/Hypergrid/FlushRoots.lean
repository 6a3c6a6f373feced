import Hypergrid.Flush

/-!
# Flushing the cached roots

The model of `flush_rooted_accounts_cache` and `do_flush_slot_cache` of
`accounts-db/src/accounts_db.rs`, and of `add_root` and `clear_roots` of the write cache,
without interruption.  The roots are flushed from the newest to the oldest; with cleaning, an
account that a newer root has written is skipped, and its index entry is purged.

* `doFlushSlotCache_spec` : what the flush of one slot does.
* `flushRoots_spec` : what the flush of a list of roots does, by induction on the list.
* `keepsView_iff` : the flush completes, and every load returns after it what it returned
  before it, exactly under a condition on the accounts of the flushed roots.
-/

namespace Hypergrid
open AccountsIndex AccountsDb AccountsCache Prod List Option ReaderFlush AccountSharedData

/-- `BTreeSet::insert` into the sorted roots. -/
def insertRoot (root : Slot) : List Slot → List Slot
  | [] => [root]
  | r :: rs =>
    if root < r then root :: r :: rs
    else if root = r then r :: rs
    else r :: insertRoot root rs

theorem mem_insertRoot {root slot : Slot} {rs : List Slot} :
    slot ∈ insertRoot root rs ↔ slot = root ∨ slot ∈ rs := by
  induction rs with
  | nil => simp [insertRoot]
  | cons r rs ih =>
    unfold insertRoot
    split_ifs with hlt heq
    · simp
    · simp [heq]
    · simp only [mem_cons, ih]
      tauto

theorem insertRoot_sorted (root : Slot) {rs : List Slot} (h : rs.Pairwise (· < ·)) :
    (insertRoot root rs).Pairwise (· < ·) := by
  induction rs with
  | nil => exact pairwise_singleton _ _
  | cons r rs ih =>
    obtain ⟨hhead, htail⟩ := pairwise_cons.mp h
    unfold insertRoot
    split_ifs with hlt heq
    · refine pairwise_cons.mpr ⟨?_, h⟩
      intro s hs
      rcases mem_cons.mp hs with rfl | hs
      · exact hlt
      · exact lt_trans hlt (hhead s hs)
    · exact h
    · refine pairwise_cons.mpr ⟨?_, ih htail⟩
      intro s hs
      rcases mem_insertRoot.mp hs with rfl | hs
      · exact lt_of_le_of_ne (not_lt.mp hlt) (Ne.symm heq)
      · exact hhead s hs

/-- The database, with what a flush of roots reads beside it. -/
structure FlushDb where
  db : AccountsDb
  /-- `maybe_unflushed_roots` -/
  maybeUnflushedRoots : List Slot
  maxFlushRoot : Slot
  uncleanedRoots : Finset Slot
  minOngoingScanRoot : Option Slot
  sorted : maybeUnflushedRoots.Pairwise (· < ·)

namespace FlushDb

/-- A database without roots to flush. -/
def withoutRoots (db : AccountsDb) (maxFlushRoot : Slot) : FlushDb where
  db
  maybeUnflushedRoots := []
  maxFlushRoot
  uncleanedRoots := ∅
  minOngoingScanRoot := none
  sorted := .nil

variable (s : FlushDb)

def addRoot (root : Slot) : FlushDb :=
  { s with
    db := { s.db with
      accountsIndex := { s.db.accountsIndex with
        aliveRoots := insert root s.db.accountsIndex.aliveRoots } }
    maybeUnflushedRoots :=
      if s.maxFlushRoot < root ∨ root = s.maxFlushRoot ∧ root = 0 then
        insertRoot root s.maybeUnflushedRoots
      else s.maybeUnflushedRoots
    sorted := by
      split_ifs
      · exact insertRoot_sorted root s.sorted
      · exact s.sorted }

/-- The roots that `clear_roots` takes out. -/
def clearRoots (maxRoot : Option Slot) : List Slot :=
  s.maybeUnflushedRoots.filter (fun root => maxRoot.all (fun m => decide (root ≤ m)))

def maxCleanRoot (proposedCleanRoot : Option Slot) : Option Slot :=
  match s.minOngoingScanRoot, proposedCleanRoot with
  | none, proposed => proposed
  | some minScanRoot, none => some minScanRoot
  | some minScanRoot, some proposed => some (min minScanRoot proposed)

def cleans (requestedFlushRoot : Option Slot) (shouldClean : Bool) (slot : Slot) : Bool :=
  shouldClean && (s.maxCleanRoot requestedFlushRoot).all (fun m => decide (slot ≤ m))

end FlushDb

/-- The index entries of the stored accounts, one after the other. -/
def upsertAll (slot : Slot) (infos : List (Pubkey × AccountInfo)) (index : AccountsIndex) :
    AccountsIndex :=
  infos.foldl (fun index x => index.upsert slot x.1 x.2) index

/-- `create_and_insert_store` and `store_accounts_frozen`. -/
def storeAccountsFrozen (db : AccountsDb) (slot : Slot)
    (accounts : List (Pubkey × AccountSharedData)) : AccountsDb :=
  { writeStorage db slot accounts with
    accountsIndex := upsertAll slot (storedInfos db.nextId accounts) db.accountsIndex }

/-- `purge_slot_cache_pubkeys`, after its assertions; a dead slot is no longer an alive root. -/
def purgeSlotCachePubkeys (db : AccountsDb) (slot : Slot) (purged : List Pubkey)
    (isDead : Bool) : AccountsDb :=
  { db with
    accountsIndex :=
      { purgeKeys db.accountsIndex slot purged with
        aliveRoots :=
          if isDead then db.accountsIndex.aliveRoots.erase slot
          else db.accountsIndex.aliveRoots } }

/-- `do_flush_slot_cache` after its assertions: purge, store, and remove the slot cache. -/
def flushSlot (db : AccountsDb) (slot : Slot) (purged : List Pubkey)
    (accounts : List (Pubkey × AccountSharedData)) : AccountsDb :=
  let db := purgeSlotCachePubkeys db slot purged accounts.isEmpty
  let db := if accounts.isEmpty then db else storeAccountsFrozen db slot accounts
  db.withAccountsCache (db.accountsCache.removeSlot slot)

/-- `do_flush_slot_cache`, where `none` is a failed assertion.  `written` are the keys that
newer roots have written, and `clean` says whether `should_flush_f` is used. -/
def doFlushSlotCache (clean : Bool) (slot : Slot) (inner : SlotCacheInner) (db : AccountsDb)
    (written : Finset Pubkey) : Option (AccountsDb × Finset Pubkey) :=
  let keys := (slotAccounts inner).map Prod.fst
  let purged := keys.filter (fun k => clean && decide (k ∈ written))
  let accounts := (slotAccounts inner).filter (fun x => !(clean && decide (x.1 ∈ written)))
  let reclaims := purged.map (fun k =>
    ((db.accountsIndex.slotList k).filter (fun e => e.1 = slot)).length)
  if (db.storage slot).isSome then none
  else if reclaims.sum ≠ purged.length then none
  else
    some (flushSlot db slot purged accounts,
      if clean then written ∪ keys.toFinset else written)

/-- The loop of `flush_rooted_accounts_cache`, from the newest root on. -/
def flushRoots (cleans : Slot → Bool) :
    List Slot → AccountsDb → Finset Pubkey → Option AccountsDb
  | [], db, _ => some db
  | root :: roots, db, written =>
    match db.accountsCache.slotCache root with
    | none => flushRoots cleans roots db written
    | some inner => do
        let (db, written) ← doFlushSlotCache (cleans root) root inner db written
        flushRoots cleans roots db written

def FlushDb.flushRootedAccountsCache (s : FlushDb) (requestedFlushRoot : Option Slot)
    (shouldClean : Bool) : Option FlushDb := do
  let cachedRoots := s.clearRoots requestedFlushRoot
  let db ← flushRoots (s.cleans requestedFlushRoot shouldClean) cachedRoots.reverse s.db ∅
  return {
    db
    maybeUnflushedRoots := s.maybeUnflushedRoots.filter (fun root => root ∉ cachedRoots)
    maxFlushRoot := cachedRoots.foldl max s.maxFlushRoot
    uncleanedRoots := s.uncleanedRoots ∪ cachedRoots.toFinset
    minOngoingScanRoot := s.minOngoingScanRoot
    sorted := s.sorted.filter _ }

section UpsertAll
variable {slot : Slot} {index : AccountsIndex} {infos : List (Pubkey × AccountInfo)}

theorem mem_upsertAll (hnodup : (infos.map fst).Nodup) {k : Pubkey} {e : Slot × AccountInfo} :
    e ∈ (upsertAll slot infos index).slotList k ↔ (∃ info, (k, info) ∈ infos ∧ e = (slot, info)) ∨
        e ∈ index.slotList k ∧ ¬(k ∈ infos.map fst ∧ e.1 = slot) := by
  induction infos generalizing index with
  | nil => simp [upsertAll]
  | cons x infos ih =>
    rw [map_cons, nodup_cons] at hnodup
    have hrest := @ih (index.upsert slot x.1 x.2) hnodup.2
    rw [upsertAll] at hrest ⊢
    rw [foldl_cons, hrest, mem_upsert, map_cons]
    by_cases hk : k = x.1
    · subst hk
      have hnone : ∀ info, (x.1, info) ∉ infos :=
        fun info hinfo => hnodup.1 (mem_map.mpr ⟨_, hinfo, rfl⟩)
      constructor
      · rintro (⟨info, hinfo, _⟩ | ⟨⟨_, rfl⟩ | ⟨he, hne⟩, _⟩)
        · exact absurd hinfo (hnone info)
        · exact .inl ⟨x.2, mem_cons_self, rfl⟩
        · exact .inr ⟨he, fun h => hne ⟨rfl, h.2⟩⟩
      · rintro (⟨info, hinfo, rfl⟩ | ⟨he, hne⟩)
        · rcases mem_cons.mp hinfo with heq | hinfo
          · refine .inr ⟨.inl ⟨rfl, ?_⟩, fun h => hnodup.1 h.1⟩
            rw [← heq]
          · exact absurd hinfo (hnone info)
        · exact .inr ⟨.inr ⟨he, fun h => hne ⟨mem_cons_self, h.2⟩⟩, fun h => hnodup.1 h.1⟩
    · have hcons : ∀ info, (k, info) ∈ x :: infos ↔ (k, info) ∈ infos := by
        intro info
        rw [mem_cons]
        exact or_iff_right fun heq => hk (congrArg fst heq)
      simp [hcons, hk]

theorem upsertAll_nodup (h : ∀ k, ((index.slotList k).map fst).Nodup) (k : Pubkey) :
    (((upsertAll slot infos index).slotList k).map fst).Nodup := by
  induction infos generalizing index with
  | nil => exact h k
  | cons x infos ih => exact ih (upsert_nodup h)

@[simp] theorem upsertAll_aliveRoots :
    (upsertAll slot infos index).aliveRoots = index.aliveRoots := by
  induction infos generalizing index with
  | nil => rfl
  | cons x infos ih => exact (@ih (index.upsert slot x.1 x.2)).trans rfl

end UpsertAll

/-- The slot was processed, and it had a slot cache. -/
def Done (db₀ : AccountsDb) (processed : List Slot) (slot : Slot) : Prop :=
  slot ∈ processed ∧ (db₀.accountsCache.slotCache slot).isSome = true

/-- What the flush of some roots has done to the database. -/
structure Flushed (db₀ : AccountsDb) (skip : Slot → Pubkey → Prop) (processed : List Slot)
    (db : AccountsDb) : Prop where
  coherent : db.Coherent
  loader : db.remoteLoader = db₀.remoteLoader
  slotCache : ∀ s, ¬Done db₀ processed s →
    db.accountsCache.slotCache s = db₀.accountsCache.slotCache s
  removed : ∀ s, Done db₀ processed s → db.accountsCache.slotCache s = none
  storage : ∀ s, ¬Done db₀ processed s → db.storage s = db₀.storage s
  roots : ∀ s, s ∈ db.accountsIndex.aliveRoots ↔ s ∈ db₀.accountsIndex.aliveRoots ∧
    (Done db₀ processed s →
      ∃ k, (db₀.accountsCache.holds s k).isSome = true ∧ ¬skip s k)
  others : ∀ k e, ¬Done db₀ processed e.1 →
    (e ∈ db.accountsIndex.slotList k ↔ e ∈ db₀.accountsIndex.slotList k)
  stored : ∀ k e, Done db₀ processed e.1 → e ∈ db.accountsIndex.slotList k →
    ∃ a, db₀.accountsCache.holds e.1 k = some a ∧ ¬skip e.1 k ∧
      db.resolve e.1 k e.2.storageLocation =
        some (AccountSharedData.fromStored (AccountsDb.accountDefaultIfZeroLamport a))
  kept : ∀ s k, Done db₀ processed s → (db₀.accountsCache.holds s k).isSome = true →
    ¬skip s k → ∃ e ∈ db.accountsIndex.slotList k, e.1 = s

theorem removeSlot_slotCache (c : AccountsCache) (slot s : Slot) :
    (c.removeSlot slot).slotCache s = if s = slot then none else c.slotCache s := by
  by_cases hs : s = slot
  · subst hs
    simp [slotCache, removeSlot]
  · simp [slotCache, removeSlot, AList.lookup_erase_ne hs, hs]

section SlotFlush
variable {db db' : AccountsDb} {slot : Slot} {inner : SlotCacheInner} {clean : Bool}
  {written written' : Finset Pubkey}

theorem length_filter_slot {l : List (Slot × AccountInfo)} (hnodup : (l.map Prod.fst).Nodup) :
    (l.filter (fun e => e.1 = slot)).length = if ∃ e ∈ l, e.1 = slot then 1 else 0 := by
  have hcount := nodup_iff_count_le_one.mp hnodup slot
  have hlength : (l.filter (fun e => e.1 = slot)).length = (l.map fst).count slot := by
    rw [count, countP_map, countP_eq_length_filter]
    congr 1
  have hpos : 0 < (l.map fst).count slot ↔ ∃ e ∈ l, e.1 = slot := by
    rw [List.count_pos_iff, List.mem_map]
  split_ifs with h
  · have := hpos.mpr h
    omega
  · have := mt hpos.mp h
    omega

theorem reclaims_sum_iff (hcoh : db.Coherent) (ks : List Pubkey) :
    (ks.map (fun k => ((db.accountsIndex.slotList k).filter
        (fun e => e.1 = slot)).length)).sum = ks.length ↔
      ∀ k ∈ ks, ∃ e ∈ db.accountsIndex.slotList k, e.1 = slot := by
  have hle : ∀ ks : List Pubkey, (ks.map (fun k => ((db.accountsIndex.slotList k).filter
      (fun e => e.1 = slot)).length)).sum ≤ ks.length := by
    intro ks
    induction ks with
    | nil => exact le_rfl
    | cons k ks ih =>
      rw [map_cons, sum_cons, length_cons, length_filter_slot (hcoh.nodup k)]
      split_ifs <;> omega
  induction ks with
  | nil => simp
  | cons k ks ih =>
    have hrest := hle ks
    rw [map_cons, sum_cons, length_cons, length_filter_slot (hcoh.nodup k), forall_mem_cons]
    split_ifs with hk
    · constructor
      · exact fun h => ⟨hk, ih.mp (by omega)⟩
      · intro h
        have := ih.mpr h.2
        omega
    · constructor
      · intro h
        omega
      · exact fun h => absurd h.1 hk

/-- The keys of a slot cache are split into purged and flushed ones. -/
structure Splits (db : AccountsDb) (slot : Slot) (skip : Pubkey → Prop) (purged : List Pubkey)
    (accounts : List (Pubkey × AccountSharedData)) : Prop where
  nodup : (accounts.map Prod.fst).Nodup
  purged : ∀ k, k ∈ purged ↔ (db.accountsCache.holds slot k).isSome = true ∧ skip k
  accounts : ∀ k a, (k, a) ∈ accounts ↔ db.accountsCache.holds slot k = some a ∧ ¬skip k

variable {skip : Pubkey → Prop} {purged : List Pubkey}
  {accounts : List (Pubkey × AccountSharedData)}
variable {k : Pubkey}

theorem Splits.mem_keys (h : Splits db slot skip purged accounts) :
    k ∈ accounts.map Prod.fst ↔ (db.accountsCache.holds slot k).isSome = true ∧ ¬skip k := by
  rw [List.mem_map, isSome_iff_exists]
  constructor
  · rintro ⟨⟨k', a⟩, hmem, rfl⟩
    obtain ⟨ha, hskip⟩ := (h.accounts k' a).mp hmem
    exact ⟨⟨a, ha⟩, hskip⟩
  · rintro ⟨⟨a, ha⟩, hskip⟩
    exact ⟨(k, a), (h.accounts k a).mpr ⟨ha, hskip⟩, rfl⟩

theorem flushSlot_slotList :
    (flushSlot db slot purged accounts).accountsIndex.slotList =
      (upsertAll slot (storedInfos db.nextId accounts)
        (purgeSlotCachePubkeys db slot purged accounts.isEmpty).accountsIndex).slotList := by
  cases accounts <;> rfl

theorem mem_flushSlot (hcoh : db.Coherent) (hnone : db.storage slot = none)
    (h : Splits db slot skip purged accounts) {e : Slot × AccountInfo} :
    e ∈ (flushSlot db slot purged accounts).accountsIndex.slotList k ↔
      (∃ info, (k, info) ∈ storedInfos db.nextId accounts ∧ e = (slot, info)) ∨
        e ∈ db.accountsIndex.slotList k ∧ e.1 ≠ slot := by
  have hpurge : ∀ e, e ∈ (purgeSlotCachePubkeys db slot purged
      accounts.isEmpty).accountsIndex.slotList k ↔
        e ∈ db.accountsIndex.slotList k ∧ ¬(k ∈ purged ∧ e.1 = slot) := by
    intro e
    exact mem_purgeKeys
  have hkeys : ((storedInfos db.nextId accounts).map fst).Nodup := by
    rw [storedInfos_keys]
    exact h.nodup
  rw [flushSlot_slotList, mem_upsertAll hkeys, hpurge, storedInfos_keys, h.mem_keys, h.purged]
  refine or_congr_right ⟨?_, ?_⟩
  · rintro ⟨⟨he, hnp⟩, hnk⟩
    refine ⟨he, fun hes => ?_⟩
    -- an entry of the slot is cached, so its key is purged or flushed
    have hres := hcoh.resolves k e he
    rw [cached_of_storage_none hcoh hnone he hes, hes] at hres
    by_cases hskip : skip k
    · exact hnp ⟨⟨hres, hskip⟩, hes⟩
    · exact hnk ⟨⟨hres, hskip⟩, hes⟩
  · rintro ⟨he, hes⟩
    exact ⟨⟨he, fun hp => hes hp.2⟩, fun hk => hes hk.2⟩

theorem flushSlot_storage (s : Slot) (hs : s ≠ slot) :
    (flushSlot db slot purged accounts).storage s = db.storage s := by
  cases accounts with
  | nil => rfl
  | cons x xs =>
    exact Function.update_of_ne hs _ _

theorem flushSlot_slotCache (s : Slot) :
    (flushSlot db slot purged accounts).accountsCache.slotCache s =
      if s = slot then none else db.accountsCache.slotCache s := by
  cases accounts <;> exact removeSlot_slotCache _ slot s

theorem flushSlot_holds (s : Slot) (hs : s ≠ slot) (k : Pubkey) :
    (flushSlot db slot purged accounts).accountsCache.holds s k = db.accountsCache.holds s k := by
  unfold holds
  rw [flushSlot_slotCache, if_neg hs]

theorem flushSlot_aliveRoots :
    (flushSlot db slot purged accounts).accountsIndex.aliveRoots =
      if accounts.isEmpty then db.accountsIndex.aliveRoots.erase slot
      else db.accountsIndex.aliveRoots := by
  cases accounts with
  | nil => rfl
  | cons x xs => exact upsertAll_aliveRoots

theorem resolve_storedInfo {info : AccountInfo}
    (hinfo : (k, info) ∈ storedInfos db.nextId accounts) :
    info.storageLocation.isCached = false ∧ ∃ a, (k, a) ∈ accounts ∧
      (flushSlot db slot purged accounts).resolve slot k info.storageLocation =
        some (fromStored (accountDefaultIfZeroLamport a)) := by
  obtain ⟨a, offset, hmem, hloc, hget⟩ := mem_storedInfos hinfo
  dsimp only at hmem hloc hget
  refine ⟨by rw [hloc]; rfl, a, hmem, ?_⟩
  have hstorage : (flushSlot db slot purged accounts).storage slot =
      some { id := db.nextId, accounts := storedAccounts accounts } := by
    cases accounts with
    | nil => cases hmem
    | cons x xs => exact Function.update_self _ _ _
  simp [hloc, resolve, getAccountStorageEntry, hstorage, hget]

theorem flushSlot_readOnly {s : Slot} {a : AccountSharedData}
    (h : (flushSlot db slot purged accounts).readOnlyAccountsCache k s = some a) :
    db.readOnlyAccountsCache k s = some a ∧ ¬(s = slot ∧ k ∈ accounts.map fst) := by
  cases accounts with
  | nil => exact ⟨h, by simp⟩
  | cons x xs =>
    have hro : (if s = slot ∧ k ∈ (x :: xs).map fst then none
        else db.readOnlyAccountsCache k s) = some a := h
    split_ifs at hro with hdropped
    exact ⟨hro, hdropped⟩

theorem flushSlot_coherent (hcoh : db.Coherent) (hnone : db.storage slot = none)
    (h : Splits db slot skip purged accounts) :
    (flushSlot db slot purged accounts).Coherent where
  nodup := by
    intro k
    have hpurged : ∀ k, (((purgeSlotCachePubkeys db slot purged
        accounts.isEmpty).accountsIndex.slotList k).map fst).Nodup :=
      fun k => @purgeKeys_nodup slot _ purged hcoh.nodup k
    rw [flushSlot_slotList]
    exact upsertAll_nodup hpurged k
  resolves := by
    intro k e he
    rcases (mem_flushSlot hcoh hnone h).mp he with ⟨info, hinfo, rfl⟩ | ⟨he, hes⟩
    · obtain ⟨_, a, _, hres⟩ := @resolve_storedInfo db slot purged accounts k info hinfo
      exact isSome_iff_exists.mpr ⟨_, hres⟩
    · rw [resolve_congr (flushSlot_holds e.1 hes k) (flushSlot_storage e.1 hes)]
      exact hcoh.resolves k e he
  readOnly := by
    intro k e a he hc hra
    obtain ⟨hold, hkept⟩ := flushSlot_readOnly hra
    rcases (mem_flushSlot hcoh hnone h).mp he with ⟨info, hinfo, rfl⟩ | ⟨he, hes⟩
    · obtain ⟨_, b, hb, _⟩ := @resolve_storedInfo db slot purged accounts k info hinfo
      exact absurd ⟨rfl, mem_map.mpr ⟨_, hb, rfl⟩⟩ hkept
    · rw [resolve_congr (flushSlot_holds e.1 hes k) (flushSlot_storage e.1 hes)]
      exact hcoh.readOnly k e a he hc hold
  roots := by
    intro s hs
    rw [flushSlot_aliveRoots] at hs
    split_ifs at hs
    · exact hcoh.roots s (Finset.mem_of_mem_erase hs)
    · exact hcoh.roots s hs

theorem done_singleton (hcache : db.accountsCache.slotCache slot = some inner) (s : Slot) :
    Done db [slot] s ↔ s = slot := by
  unfold Done
  rw [mem_singleton]
  refine and_iff_left_of_imp ?_
  rintro rfl
  rw [hcache]
  rfl

theorem flushSlot_spec (hcoh : db.Coherent) (hnone : db.storage slot = none)
    (hcache : db.accountsCache.slotCache slot = some inner)
    (h : Splits db slot skip purged accounts) :
    Flushed db (fun _ => skip) [slot] (flushSlot db slot purged accounts) := by
  have hdone := done_singleton hcache
  refine ⟨flushSlot_coherent hcoh hnone h, ?_, fun s hs => ?_, fun s hs => ?_,
    fun s hs => flushSlot_storage s (mt (hdone s).mpr hs), fun s => ?_, fun k e hs => ?_,
    fun k e hs he => ?_, fun s k hs hk hskip => ?_⟩
  · unfold flushSlot
    cases accounts <;> rfl
  · rw [flushSlot_slotCache, if_neg (mt (hdone s).mpr hs)]
  · rw [flushSlot_slotCache, if_pos ((hdone s).mp hs)]
  · rw [flushSlot_aliveRoots, hdone]
    cases haccounts : accounts with
    | nil =>
      have hdead : ¬∃ k, (db.accountsCache.holds slot k).isSome = true ∧ ¬skip k := by
        rintro ⟨k, hk⟩
        have hmem := h.mem_keys.mpr hk
        rw [haccounts] at hmem
        cases hmem
      simp only [isEmpty_nil, if_true, Finset.mem_erase]
      exact ⟨fun hs => ⟨hs.2, fun heq => absurd heq hs.1⟩,
        fun hs => ⟨fun heq => hdead (heq ▸ hs.2 heq), hs.1⟩⟩
    | cons x xs =>
      have hx : x.1 ∈ accounts.map fst := by
        rw [haccounts]
        exact mem_cons_self
      exact ⟨fun hs => ⟨hs, fun heq => ⟨x.1, heq ▸ h.mem_keys.mp hx⟩⟩, fun hs => hs.1⟩
  · have hes := mt (hdone e.1).mpr hs
    rw [mem_flushSlot hcoh hnone h]
    constructor
    · rintro (⟨info, _, rfl⟩ | ⟨he, _⟩)
      · exact absurd rfl hes
      · exact he
    · exact fun he => .inr ⟨he, hes⟩
  · rcases (mem_flushSlot hcoh hnone h).mp he with ⟨info, hinfo, rfl⟩ | ⟨_, hne⟩
    · obtain ⟨_, a, ha, hres⟩ := @resolve_storedInfo db slot purged accounts k info hinfo
      obtain ⟨hholds, hskip⟩ := (h.accounts k a).mp ha
      exact ⟨a, hholds, hskip, hres⟩
    · exact absurd ((hdone e.1).mp hs) hne
  · obtain rfl := (hdone s).mp hs
    have hmem := h.mem_keys.mpr ⟨hk, hskip⟩
    rw [← storedInfos_keys db.nextId] at hmem
    obtain ⟨⟨k', info⟩, hinfo, rfl⟩ := mem_map.mp hmem
    exact ⟨(s, info), (mem_flushSlot hcoh hnone h).mpr (.inl ⟨info, hinfo, rfl⟩), rfl⟩

theorem splits_slotCache (hcache : db.accountsCache.slotCache slot = some inner) :
    Splits db slot (fun k => clean = true ∧ k ∈ written)
      (((slotAccounts inner).map Prod.fst).filter (fun k => clean && decide (k ∈ written)))
      ((slotAccounts inner).filter (fun x => !(clean && decide (x.1 ∈ written)))) where
  nodup := List.Nodup.sublist (List.filter_sublist.map fst) (slotAccounts_nodup inner)
  purged := by
    intro k
    rw [List.mem_filter, List.mem_map, Bool.and_eq_true, decide_eq_true_eq, isSome_iff_exists]
    refine and_congr_left fun _ => ?_
    constructor
    · rintro ⟨⟨k', a⟩, hmem, rfl⟩
      exact ⟨a, (mem_slotAccounts hcache).mp hmem⟩
    · rintro ⟨a, ha⟩
      exact ⟨(k, a), (mem_slotAccounts hcache).mpr ha, rfl⟩
  accounts := by
    intro k a
    rw [mem_filter, mem_slotAccounts hcache]
    refine and_congr_right fun _ => ?_
    cases clean <;> simp

variable (hcoh : db.Coherent) (hcache : db.accountsCache.slotCache slot = some inner)
include hcoh hcache

/-- The flush of a slot completes exactly if the slot has no storage, and the skipped keys have
an index entry of the slot. -/
theorem doFlushSlotCache_isSome_iff :
    (doFlushSlotCache clean slot inner db written).isSome = true ↔
      db.storage slot = none ∧ ∀ k, (db.accountsCache.holds slot k).isSome = true →
        clean = true ∧ k ∈ written → ∃ e ∈ db.accountsIndex.slotList k, e.1 = slot := by
  have hsplits := @splits_slotCache db slot inner clean written hcache
  have hpurged : (∀ k ∈ ((slotAccounts inner).map fst).filter
      (fun k => clean && decide (k ∈ written)), ∃ e ∈ db.accountsIndex.slotList k, e.1 = slot) ↔
      ∀ k, (db.accountsCache.holds slot k).isSome = true →
        clean = true ∧ k ∈ written → ∃ e ∈ db.accountsIndex.slotList k, e.1 = slot := by
    simp [hsplits.purged]
  unfold doFlushSlotCache
  rw [← hpurged, ← reclaims_sum_iff hcoh]
  cases hstorage : db.storage slot with
  | some x => simp
  | none =>
    simp only [isSome_none, Bool.false_eq_true, if_false, true_and]
    generalize (((slotAccounts inner).map fst).filter
      (fun k => clean && decide (k ∈ written))) = purged
    by_cases hsum : (purged.map (fun k => ((db.accountsIndex.slotList k).filter
        (fun e => e.1 = slot)).length)).sum = purged.length
    · rw [if_neg (not_not.mpr hsum)]
      exact ⟨fun _ => hsum, fun _ => rfl⟩
    · rw [if_pos hsum]
      exact ⟨fun h => absurd h Bool.false_ne_true, fun h => absurd h hsum⟩

theorem doFlushSlotCache_spec
    (h : doFlushSlotCache clean slot inner db written = some (db', written')) :
    Flushed db (fun _ k => clean = true ∧ k ∈ written) [slot] db' ∧
      ∀ k, k ∈ written' ↔ k ∈ written ∨
        clean = true ∧ (db.accountsCache.holds slot k).isSome = true := by
  have hsplits := @splits_slotCache db slot inner clean written hcache
  obtain ⟨hnone, _⟩ := (doFlushSlotCache_isSome_iff hcoh hcache).mp (by rw [h]; rfl)
  unfold doFlushSlotCache at h
  dsimp only at h
  split_ifs at h with h1 h2 h3
  · rw [some.injEq, Prod.mk.injEq] at h
    obtain ⟨rfl, rfl⟩ := h
    refine ⟨flushSlot_spec hcoh hnone hcache hsplits, fun k => ?_⟩
    rw [Finset.mem_union, List.mem_toFinset, List.mem_map, isSome_iff_exists]
    refine or_congr_right ⟨?_, ?_⟩
    · rintro ⟨⟨k', a⟩, hmem, rfl⟩
      exact ⟨h3, a, (mem_slotAccounts hcache).mp hmem⟩
    · rintro ⟨_, a, ha⟩
      exact ⟨(k, a), (mem_slotAccounts hcache).mpr ha, rfl⟩
  · rw [some.injEq, Prod.mk.injEq] at h
    obtain ⟨rfl, rfl⟩ := h
    refine ⟨flushSlot_spec hcoh hnone hcache hsplits, fun k => ?_⟩
    simp [h3]

end SlotFlush

namespace Flushed

variable {db₀ db db' : AccountsDb} {skip : Slot → Pubkey → Prop} {processed : List Slot}
  {slot : Slot}

theorem nil (hcoh : db₀.Coherent) : Flushed db₀ skip [] db₀ where
  coherent := hcoh
  loader := rfl
  slotCache := fun _ _ => rfl
  removed := fun _ h => absurd h.1 not_mem_nil
  storage := fun _ _ => rfl
  roots := fun _ => ⟨fun h => ⟨h, fun hd => absurd hd.1 not_mem_nil⟩, fun h => h.1⟩
  others := fun _ _ _ => .rfl
  stored := fun _ _ h => absurd h.1 not_mem_nil
  kept := fun _ _ h => absurd h.1 not_mem_nil

variable (h : Flushed db₀ skip processed db)
include h

theorem holds {s : Slot} (hs : ¬Done db₀ processed s)
    (k : Pubkey) : db.accountsCache.holds s k = db₀.accountsCache.holds s k := by
  unfold AccountsCache.holds
  rw [h.slotCache s hs]

theorem resolve {s : Slot} (hs : ¬Done db₀ processed s)
    (k : Pubkey) (loc : StorageLocation) : db.resolve s k loc = db₀.resolve s k loc :=
  resolve_congr (h.holds hs k) (h.storage s hs) loc

theorem pass
    (hnone : db₀.accountsCache.slotCache slot = none) :
    Flushed db₀ skip (slot :: processed) db := by
  have hdone : Done db₀ (slot :: processed) = Done db₀ processed := by
    funext s
    refine propext ⟨?_, fun hs => ⟨mem_cons_of_mem _ hs.1, hs.2⟩⟩
    rintro ⟨hs, hsome⟩
    rcases mem_cons.mp hs with rfl | hs
    · rw [hnone] at hsome
      cases hsome
    · exact ⟨hs, hsome⟩
  exact ⟨h.coherent, h.loader, hdone ▸ h.slotCache, hdone ▸ h.removed, hdone ▸ h.storage,
    hdone ▸ h.roots, hdone ▸ h.others, hdone ▸ h.stored, hdone ▸ h.kept⟩

theorem step {inner : SlotCacheInner} {skip' : Slot → Pubkey → Prop}
    (hslot : ¬Done db₀ processed slot)
    (hcache : db₀.accountsCache.slotCache slot = some inner) (hskip : skip' slot = skip slot)
    (hflush : Flushed db skip' [slot] db') : Flushed db₀ skip (slot :: processed) db' := by
  have hone := done_singleton ((h.slotCache slot hslot).trans hcache)
  have hsplit : ∀ s, Done db₀ (slot :: processed) s ↔ s = slot ∨ Done db₀ processed s := by
    intro s
    unfold Done
    rw [mem_cons, or_and_right]
    refine or_congr_left (and_iff_left_of_imp ?_)
    rintro rfl
    rw [hcache]
    rfl
  have hnot : ∀ {s}, ¬Done db₀ (slot :: processed) s →
      ¬Done db [slot] s ∧ ¬Done db₀ processed s := by
    intro s hs
    rw [hone]
    exact not_or.mp (mt (hsplit s).mpr hs)
  have hne : ∀ {s}, Done db₀ processed s → ¬Done db [slot] s := by
    intro s hs heq
    rw [hone] at heq
    exact hslot (heq ▸ hs)
  have hholds := h.holds hslot
  refine ⟨hflush.coherent, hflush.loader.trans h.loader, ?_, ?_, ?_, ?_, ?_, ?_, ?_⟩
  · intro s hs
    rw [hflush.slotCache s (hnot hs).1, h.slotCache s (hnot hs).2]
  · intro s hs
    rcases (hsplit s).mp hs with rfl | hs
    · exact hflush.removed s ((hone s).mpr rfl)
    · rw [hflush.slotCache s (hne hs), h.removed s hs]
  · intro s hs
    rw [hflush.storage s (hnot hs).1, h.storage s (hnot hs).2]
  · intro s
    rw [hflush.roots s, h.roots s, hone]
    simp only [hsplit]
    constructor
    · rintro ⟨⟨hs, hdone⟩, hnew⟩
      refine ⟨hs, ?_⟩
      rintro (rfl | hd)
      · simpa only [hholds, hskip] using hnew rfl
      · exact hdone hd
    · rintro ⟨hs, hall⟩
      refine ⟨⟨hs, fun hd => hall (.inr hd)⟩, ?_⟩
      rintro rfl
      simpa only [hholds, hskip] using hall (.inl rfl)
  · intro k e hs
    rw [hflush.others k e (hnot hs).1, h.others k e (hnot hs).2]
  · intro k e hs he
    rcases (hsplit e.1).mp hs with hes | hs
    · have hstored := hflush.stored k e ((hone e.1).mpr hes) he
      rwa [hes, hholds, hskip, ← hes] at hstored
    · rw [hflush.others k e (hne hs)] at he
      obtain ⟨a, ha, hskip, hres⟩ := h.stored k e hs he
      refine ⟨a, ha, hskip, ?_⟩
      rw [hflush.resolve (hne hs), hres]
  · intro s k hs hk hkeep
    rcases (hsplit s).mp hs with rfl | hs
    · exact hflush.kept s k ((hone s).mpr rfl) (by rwa [hholds]) (by rwa [hskip])
    · obtain ⟨e, he, hes⟩ := h.kept s k hs hk hkeep
      exact ⟨e, (hflush.others k e (hes ▸ hne hs)).mpr he, hes⟩

end Flushed

/-- The account of a key in a root is skipped: a newer flushed root has written the key. -/
def Skipped (db₀ : AccountsDb) (cleans : Slot → Bool) (roots : List Slot) (slot : Slot)
    (k : Pubkey) : Prop :=
  cleans slot = true ∧ ∃ root ∈ roots, slot < root ∧ cleans root = true ∧
    (db₀.accountsCache.holds root k).isSome = true

/-- The assertions of the flush of a slot hold. -/
def Flushable (db₀ : AccountsDb) (skip : Slot → Pubkey → Prop) (slot : Slot) : Prop :=
  (db₀.accountsCache.slotCache slot).isSome = true → db₀.storage slot = none ∧
    ∀ k, (db₀.accountsCache.holds slot k).isSome = true → skip slot k →
      ∃ e ∈ db₀.accountsIndex.slotList k, e.1 = slot

section Run
variable {db₀ : AccountsDb} {cleans : Slot → Bool}

/-- The flush of the roots, by induction on the list: `processed` are the newer ones. -/
theorem flushRoots_spec (all roots : List Slot) {processed : List Slot} {db : AccountsDb}
    {written : Finset Pubkey} (hsorted : roots.Pairwise (· > ·))
    (hnewer : ∀ r ∈ roots, ∀ p ∈ processed, r < p)
    (hall : ∀ r, r ∈ all ↔ r ∈ processed ∨ r ∈ roots)
    (h : Flushed db₀ (Skipped db₀ cleans all) processed db)
    (hwritten : ∀ k, k ∈ written ↔ ∃ r ∈ processed, cleans r = true ∧
      (db₀.accountsCache.holds r k).isSome = true) :
    ((flushRoots cleans roots db written).isSome = true ↔
        ∀ r ∈ roots, Flushable db₀ (Skipped db₀ cleans all) r) ∧
      ∀ db', flushRoots cleans roots db written = some db' →
        Flushed db₀ (Skipped db₀ cleans all) (roots.reverse ++ processed) db' := by
  induction roots generalizing processed db written with
  | nil =>
    refine ⟨⟨fun _ r hr => absurd hr not_mem_nil, fun _ => rfl⟩, ?_⟩
    intro db' hdb'
    rw [flushRoots, some.injEq] at hdb'
    rw [← hdb']
    exact h
  | cons root roots ih =>
    obtain ⟨hhead, htail⟩ := pairwise_cons.mp hsorted
    have hfresh : ¬Done db₀ processed root :=
      fun hd => absurd (hnewer root mem_cons_self root hd.1) (lt_irrefl root)
    have hnewer' : ∀ r ∈ roots, ∀ p ∈ root :: processed, r < p := by
      intro r hr p hp
      rcases mem_cons.mp hp with rfl | hp
      · exact hhead r hr
      · exact hnewer r (mem_cons_of_mem _ hr) p hp
    have hall' : ∀ r, r ∈ all ↔ r ∈ root :: processed ∨ r ∈ roots := by
      intro r
      rw [hall, mem_cons, mem_cons]
      tauto
    rw [reverse_cons, append_assoc, singleton_append, forall_mem_cons,
      flushRoots, h.slotCache root hfresh]
    cases hcache : db₀.accountsCache.slotCache root with
    | none =>
      have hpass : Flushable db₀ (Skipped db₀ cleans all) root := by
        intro hsome
        rw [hcache] at hsome
        cases hsome
      have hempty : ∀ k, db₀.accountsCache.holds root k = none := by
        intro k
        simp [holds, hcache]
      have hwritten' : ∀ k, k ∈ written ↔ ∃ r ∈ root :: processed, cleans r = true ∧
          (db₀.accountsCache.holds r k).isSome = true := by
        intro k
        rw [hwritten]
        simp [hempty]
      have hrest := ih htail hnewer' hall' (h.pass hcache) hwritten'
      exact ⟨hrest.1.trans ⟨fun hr => ⟨hpass, hr⟩, fun hr => hr.2⟩, hrest.2⟩
    | some inner =>
      have hcache' : db.accountsCache.slotCache root = some inner :=
        (h.slotCache root hfresh).trans hcache
      -- the newer roots that have written a key are the processed ones
      have hskip : ∀ k, (cleans root = true ∧ k ∈ written) ↔ Skipped db₀ cleans all root k := by
        intro k
        refine and_congr_right fun _ => ?_
        rw [hwritten]
        constructor
        · rintro ⟨r, hr, hclean⟩
          exact ⟨r, (hall r).mpr (.inl hr), hnewer root mem_cons_self r hr, hclean⟩
        · rintro ⟨r, hr, hlt, hclean⟩
          refine ⟨r, ?_, hclean⟩
          rcases (hall r).mp hr with hr | hr
          · exact hr
          · rcases mem_cons.mp hr with rfl | hr
            · exact absurd hlt (lt_irrefl r)
            · exact absurd hlt (lt_asymm (hhead r hr))
      have hflushable : (doFlushSlotCache (cleans root) root inner db written).isSome =
          true ↔ Flushable db₀ (Skipped db₀ cleans all) root := by
        rw [doFlushSlotCache_isSome_iff h.coherent hcache', h.storage root hfresh]
        have hentry : ∀ k, (∃ e ∈ db.accountsIndex.slotList k, e.1 = root) ↔
            ∃ e ∈ db₀.accountsIndex.slotList k, e.1 = root := by
          intro k
          refine exists_congr fun e => and_congr_left fun hes => h.others k e ?_
          rw [hes]
          exact hfresh
        simp [h.holds hfresh, hskip, hentry, Flushable, hcache, isSome_some]
      cases hflush : doFlushSlotCache (cleans root) root inner db written with
      | none =>
        rw [hflush] at hflushable
        simp only [hflush, bind_eq_bind, bind_none]
        refine ⟨⟨fun hs => (by cases hs), fun hr => ?_⟩, fun _ hs => (by cases hs)⟩
        exact absurd (hflushable.mpr hr.1) (by simp)
      | some x =>
        obtain ⟨db₁, written₁⟩ := x
        rw [hflush] at hflushable
        obtain ⟨hslot, hwritten₁⟩ := doFlushSlotCache_spec h.coherent hcache' hflush
        have hwritten' : ∀ k, k ∈ written₁ ↔ ∃ r ∈ root :: processed,
            cleans r = true ∧ (db₀.accountsCache.holds r k).isSome = true := by
          intro k
          rw [hwritten₁, hwritten, h.holds hfresh, exists_mem_cons_iff]
          exact or_comm
        have hrest := ih htail hnewer' hall'
          (h.step hfresh hcache (funext fun k => propext (hskip k)) hslot) hwritten'
        simp only [hflush, bind_eq_bind, bind_some]
        exact ⟨hrest.1.trans ⟨fun hr => ⟨hflushable.mp rfl, hr⟩, fun hr => hr.2⟩, hrest.2⟩

end Run

/-- A newer root has a version of the account. -/
def Superseded (db : AccountsDb) (slot : Slot) (k : Pubkey) : Prop :=
  ∃ e ∈ db.accountsIndex.slotList k, slot < e.1 ∧ e.1 ∈ db.accountsIndex.aliveRoots

/-- A cached account of a root comes back from the storage as it is: it has no lamports, or no
reader looks at it, or it is not remote and its slot is in the index. -/
def Intact (db : AccountsDb) (slot : Slot) (k : Pubkey) (a : AccountSharedData) : Prop :=
  a.lamports ≠ 0 → Superseded db slot k ∨
    a.remote = false ∧ ∃ e ∈ db.accountsIndex.slotList k, e.1 = slot

section View
variable {db₀ db : AccountsDb} {cleans : Slot → Bool} {all processed : List Slot}
  {k : Pubkey} {ancestors : Finset Slot}
variable {slot : Slot} {e : Slot × AccountInfo} {a : AccountSharedData}

def loaded (db : AccountsDb) (ancestors : Finset Slot) (k : Pubkey) :
    Option (AccountSharedData × Slot) :=
  (db.visible ancestors k).filter (fun x => !x.1.isZeroLamport)

theorem superseded_of_skipped (hwf : db₀.WellFormed)
    (hroots : ∀ r ∈ all, r ∈ db₀.accountsIndex.aliveRoots)
    (h : Skipped db₀ cleans all slot k) : Superseded db₀ slot k := by
  obtain ⟨_, r, hr, hlt, _, hholds⟩ := h
  obtain ⟨e, he, hes⟩ := hwf.known r k (Nat.ne_zero_of_lt hlt) hholds
  exact ⟨e, he, hes ▸ hlt, hes ▸ hroots r hr⟩

theorem visible_of_root (hcoh : db₀.Coherent) (h : slot ∈ db₀.accountsIndex.aliveRoots) :
    db₀.accountsIndex.Visible ancestors none slot :=
  .inr ⟨hcoh.roots slot h, h⟩

section Flushed
variable (h : Flushed db₀ (Skipped db₀ cleans all) processed db)
include h

theorem Flushed.visible_before (hvis : db.accountsIndex.Visible ancestors none slot) :
    db₀.accountsIndex.Visible ancestors none slot := by
  rcases hvis with hmem | ⟨hle, hroot⟩
  · exact .inl hmem
  · exact .inr ⟨hle, ((h.roots slot).mp hroot).1⟩

theorem Flushed.entry_before (hwf : db₀.WellFormed) (he : e ∈ db.accountsIndex.slotList k)
    (hne : e.1 ≠ 0) : ∃ e₀ ∈ db₀.accountsIndex.slotList k, e₀.1 = e.1 := by
  by_cases hdone : Done db₀ processed e.1
  · obtain ⟨a, ha, _⟩ := h.stored k e hdone he
    exact hwf.known e.1 k hne (by rw [ha]; rfl)
  · exact ⟨e, (h.others k e hdone).mp he, rfl⟩

theorem Flushed.visible_after (hvis : db₀.accountsIndex.Visible ancestors none slot)
    (hkept : Done db₀ processed slot → ∃ k, (db₀.accountsCache.holds slot k).isSome = true ∧
      ¬Skipped db₀ cleans all slot k) :
    db.accountsIndex.Visible ancestors none slot := by
  rcases hvis with hmem | ⟨hle, hroot⟩
  · exact .inl hmem
  · exact .inr ⟨hle, (h.roots slot).mpr ⟨hroot, hkept⟩⟩

theorem Flushed.le_of_visible (hwf : db₀.WellFormed) (hmax : ∀ e ∈ db₀.accountsIndex.slotList k,
      db₀.accountsIndex.Visible ancestors none e.1 → e.1 ≤ slot)
    (he : e ∈ db.accountsIndex.slotList k) (hvis : db.accountsIndex.Visible ancestors none e.1) :
    e.1 ≤ slot := by
  by_cases hzero : e.1 = 0
  · rw [hzero]
    exact Nat.zero_le _
  · obtain ⟨e₀, he₀, hes⟩ := h.entry_before hwf he hzero
    have hvis₀ := h.visible_before hvis
    rw [← hes] at hvis₀ ⊢
    exact hmax e₀ he₀ hvis₀

end Flushed

theorem loaded_of_get (hget : db.accountsIndex.get k ancestors none = some e)
    (hres : db.resolve e.1 k e.2.storageLocation = some a) :
    loaded db ancestors k = if a.lamports = 0 then none else some (a, e.1) := by
  unfold loaded visible
  rw [hget]
  dsimp only
  rw [hres]
  by_cases hz : a.lamports = 0 <;> simp [isZeroLamport, hz]

theorem Flushed.loaded_stored (h : Flushed db₀ (Skipped db₀ cleans all) processed db)
    (hwf : db₀.WellFormed)
    (hdone : Done db₀ processed slot) (ha : db₀.accountsCache.holds slot k = some a)
    (hskip : ¬Skipped db₀ cleans all slot k)
    (hvis : db₀.accountsIndex.Visible ancestors none slot)
    (hmax : ∀ e ∈ db₀.accountsIndex.slotList k,
      db₀.accountsIndex.Visible ancestors none e.1 → e.1 ≤ slot) :
    loaded db ancestors k =
      if a.lamports = 0 then none else some (AccountSharedData.fromStored a, slot) := by
  have hsome : (db₀.accountsCache.holds slot k).isSome = true := by
    rw [ha]
    rfl
  obtain ⟨e, he, rfl⟩ := h.kept slot k hdone hsome hskip
  have hget : db.accountsIndex.get k ancestors none = some e :=
    get_eq_some_of_max (h.coherent.nodup k) he
      (h.visible_after hvis fun _ => ⟨k, hsome, hskip⟩)
      (fun _ he' hvis' => h.le_of_visible hwf hmax he' hvis')
  obtain ⟨b, hb, _, hres⟩ := h.stored k e hdone he
  rw [ha, some.injEq] at hb
  subst hb
  rw [loaded_of_get hget hres, accountDefaultIfZeroLamport]
  by_cases hz : a.lamports = 0
  · simp [AccountSharedData.isZeroLamport, hz, AccountSharedData.default, AccountSharedData.create]
  · simp [AccountSharedData.isZeroLamport, hz]

theorem fromStored_eq_iff : fromStored a = a ↔ a.remote = false := by
  constructor
  · intro h
    rw [← h]
    rfl
  · intro h
    obtain ⟨_, _, _, _, _, remote⟩ := a
    subst h
    rfl

theorem resolve_of_cached (hcoh : db₀.Coherent)
    (he : e ∈ db₀.accountsIndex.slotList k) (hnone : db₀.storage e.1 = none) :
    ∃ a, db₀.accountsCache.holds e.1 k = some a ∧
      db₀.resolve e.1 k e.2.storageLocation = some a := by
  have hres := hcoh.resolves k e he
  rw [cached_of_storage_none hcoh hnone he rfl] at hres ⊢
  obtain ⟨a, ha⟩ := isSome_iff_exists.mp hres
  exact ⟨a, ha, ha⟩

variable (hwf : db₀.WellFormed) (hroots : ∀ r ∈ all, r ∈ db₀.accountsIndex.aliveRoots)
  (hflushable : ∀ r ∈ all, Flushable db₀ (Skipped db₀ cleans all) r)
  (h : Flushed db₀ (Skipped db₀ cleans all) all db)
  (hintact : ∀ slot ∈ all, ∀ k a, db₀.accountsCache.holds slot k = some a →
    Intact db₀ slot k a)

include hwf hroots h hintact

include hflushable in
theorem Flushed.loaded_of_found
    (hget : db₀.accountsIndex.get k ancestors none = some e) :
    loaded db ancestors k = loaded db₀ ancestors k := by
  obtain ⟨he, hvis, hmax⟩ := get_eq_some hget
  by_cases hdone : Done db₀ all e.1
  · obtain ⟨a, ha, hres⟩ := resolve_of_cached hwf.toCoherent he
      (hflushable e.1 hdone.1 hdone.2).1
    have hnewest : ¬Superseded db₀ e.1 k := by
      rintro ⟨e', he', hlt, hroot⟩
      exact absurd (hmax e' he' (visible_of_root hwf.toCoherent hroot)) (not_le.mpr hlt)
    have hskip : ¬Skipped db₀ cleans all e.1 k := mt (superseded_of_skipped hwf hroots) hnewest
    rw [h.loaded_stored hwf hdone ha hskip hvis hmax, loaded_of_get hget hres]
    split_ifs with hz
    · rfl
    · rcases hintact e.1 hdone.1 k a ha hz with hsup | ⟨hlocal, _⟩
      · exact absurd hsup hnewest
      · rw [fromStored_eq_iff.mpr hlocal]
  · have he' := (h.others k e hdone).mpr he
    have hvis' := h.visible_after hvis fun hd => absurd hd hdone
    have hget' : db.accountsIndex.get k ancestors none = some e :=
      get_eq_some_of_max (h.coherent.nodup k) he' hvis'
        (fun _ hmem hv => h.le_of_visible hwf hmax hmem hv)
    unfold loaded visible
    rw [hget, hget']
    dsimp only
    rw [h.resolve hdone]

theorem Flushed.loaded_of_missing (hget : db₀.accountsIndex.get k ancestors none = none) :
    loaded db ancestors k = loaded db₀ ancestors k := by
  have hnone := (AccountsIndex.get_eq_none_iff _ _ _ _).mp hget
  have hhidden : ∀ e ∈ db₀.accountsIndex.slotList k, e.1 ∉ db₀.accountsIndex.aliveRoots :=
    fun e he hroot => hnone e he (visible_of_root hwf.toCoherent hroot)
  have hnewest : ∀ slot, ¬Superseded db₀ slot k := fun _ ⟨e, he, _, hroot⟩ => hhidden e he hroot
  by_cases hzero : Done db₀ all 0 ∧ (db₀.accountsCache.holds 0 k).isSome = true
  · -- the dummy slot is a root: its copy has become an account of the index
    obtain ⟨hdone, hsome⟩ := hzero
    obtain ⟨a, ha⟩ := Option.isSome_iff_exists.mp hsome
    have hz : a.lamports = 0 := by
      by_contra hz
      rcases hintact 0 hdone.1 k a ha hz with hsup | ⟨_, e, he, hes⟩
      · exact hnewest 0 hsup
      · exact hhidden e he (hes ▸ hroots 0 hdone.1)
    have hskip : ¬Skipped db₀ cleans all 0 k := mt (superseded_of_skipped hwf hroots) (hnewest 0)
    rw [h.loaded_stored hwf hdone ha hskip (visible_of_root hwf.toCoherent (hroots 0 hdone.1))
      (fun e he hv => absurd hv (hnone e he)), if_pos hz]
    unfold loaded visible remoteCopy
    rw [hget, ha]
    split_ifs <;> simp [Option.filter, isZeroLamport, hz]
  · have hget' : db.accountsIndex.get k ancestors none = none := by
      refine (AccountsIndex.get_eq_none_iff _ _ _ _).mpr fun e he hv => ?_
      by_cases hes : e.1 = 0
      · by_cases hdone : Done db₀ all e.1
        · obtain ⟨a, ha, _⟩ := h.stored k e hdone he
          rw [hes] at hdone ha
          exact hzero ⟨hdone, by rw [ha]; rfl⟩
        · exact hnone e ((h.others k e hdone).mp he) (h.visible_before hv)
      · obtain ⟨e₀, he₀, hes₀⟩ := h.entry_before hwf he hes
        exact hnone e₀ he₀ (hes₀ ▸ h.visible_before hv)
    have hcopy : db.accountsCache.holds 0 k = db₀.accountsCache.holds 0 k := by
      by_cases hdone : Done db₀ all 0
      · have hempty : db₀.accountsCache.holds 0 k = none :=
          Option.not_isSome_iff_eq_none.mp fun hs => hzero ⟨hdone, hs⟩
        rw [hempty, AccountsCache.holds, h.removed 0 hdone]
        rfl
      · exact h.holds hdone k
    unfold loaded visible remoteCopy
    rw [hget, hget', hcopy, h.loader]

include hflushable in
theorem Flushed.loaded_eq (ancestors : Finset Slot) (k : Pubkey) :
    loaded db ancestors k = loaded db₀ ancestors k := by
  cases hget : db₀.accountsIndex.get k ancestors none with
  | none => exact h.loaded_of_missing hwf hroots hintact hget
  | some e => exact h.loaded_of_found hwf hroots hflushable hintact hget

omit hintact

include hflushable in
/-- The condition is needed, already for the loads of a bank without ancestors. -/
theorem Flushed.intact_of_loaded_eq (hload : ∀ k, loaded db ∅ k = loaded db₀ ∅ k)
    (hslot : slot ∈ all)
    (ha : db₀.accountsCache.holds slot k = some a) : Intact db₀ slot k a := by
  intro hz
  rw [or_iff_not_imp_left]
  intro hnewest
  have hcache : (db₀.accountsCache.slotCache slot).isSome = true := by
    by_contra hc
    rw [AccountsCache.holds, not_isSome_iff_eq_none.mp hc] at ha
    cases ha
  have hmax : ∀ e ∈ db₀.accountsIndex.slotList k,
      db₀.accountsIndex.Visible ∅ none e.1 → e.1 ≤ slot := by
    rintro e he (hmem | ⟨_, hroot⟩)
    · exact absurd hmem (Finset.notMem_empty _)
    · exact not_lt.mp fun hlt => hnewest ⟨e, he, hlt, hroot⟩
  have hload := hload k
  rw [h.loaded_stored hwf ⟨hslot, hcache⟩ ha
    (mt (superseded_of_skipped hwf hroots) hnewest)
    (visible_of_root hwf.toCoherent (hroots slot hslot)) hmax, if_neg hz] at hload
  cases hget : db₀.accountsIndex.get k ∅ none with
  | none =>
    rw [loaded, visible, hget] at hload
    simp at hload
  | some e =>
    obtain ⟨he, _, _⟩ := AccountsIndex.get_eq_some hget
    rw [loaded, visible, hget] at hload
    obtain ⟨hfound, _⟩ := filter_eq_some_iff.mp hload.symm
    obtain ⟨b, hb, heq⟩ := map_eq_some_iff.mp hfound
    obtain ⟨rfl, rfl⟩ := Prod.mk.inj heq
    obtain ⟨c, hc, hres⟩ := resolve_of_cached hwf.toCoherent he
      (hflushable e.1 hslot hcache).1
    rw [ha, some.injEq] at hc
    rw [hb, ← hc, some.injEq] at hres
    exact ⟨fromStored_eq_iff.mp hres, e, he, rfl⟩

end View

namespace FlushDb

variable {s : FlushDb} {requested : Option Slot} {shouldClean : Bool}

/-- The flush completes, and every load of a bank whose ancestors are roots or not older than
the flushed roots returns what it returned before. -/
def KeepsView (s : FlushDb) (requested : Option Slot) (shouldClean : Bool) : Prop :=
  ∃ s', s.flushRootedAccountsCache requested shouldClean = some s' ∧
    ∀ q : LoadQuery,
      (∀ slot ∈ q.ancestors, (∀ root ∈ s.clearRoots requested, root ≤ slot) ∨
        slot ∈ s.db.accountsIndex.aliveRoots) →
      (s'.db.doLoad q).2 = (s.db.doLoad q).2

def Skips (s : FlushDb) (requested : Option Slot) (shouldClean : Bool) : Slot → Pubkey → Prop :=
  Skipped s.db (s.cleans requested shouldClean) (s.clearRoots requested)

theorem flushRootedAccountsCache_spec (hwf : s.db.WellFormed) :
    ((s.flushRootedAccountsCache requested shouldClean).isSome = true ↔
        ∀ r ∈ s.clearRoots requested, Flushable s.db (s.Skips requested shouldClean) r) ∧
      ∀ s', s.flushRootedAccountsCache requested shouldClean = some s' →
        Flushed s.db (s.Skips requested shouldClean) (s.clearRoots requested) s'.db := by
  obtain ⟨hsome, hflushed⟩ := @flushRoots_spec s.db (s.cleans requested shouldClean)
    (s.clearRoots requested) (s.clearRoots requested).reverse [] s.db ∅
    (pairwise_reverse.mpr (s.sorted.filter _)) (fun _ _ _ hp => absurd hp not_mem_nil)
    (by simp) (.nil hwf.toCoherent) (by simp)
  simp only [mem_reverse, reverse_reverse, append_nil] at hsome hflushed
  unfold flushRootedAccountsCache
  dsimp only
  cases hrun : flushRoots (s.cleans requested shouldClean) (s.clearRoots requested).reverse
      s.db ∅ with
  | none =>
    rw [hrun] at hsome
    exact ⟨hsome, fun s' hs' => absurd hs'.symm (some_ne_none s')⟩
  | some db =>
    rw [hrun] at hsome
    refine ⟨hsome, fun s' hs' => ?_⟩
    cases hs'
    exact hflushed db hrun

/-- A flush of roots keeps the view of the readers exactly if its assertions hold and every
account of the flushed roots comes back from the storage as it was. -/
theorem keepsView_iff (hwf : s.db.WellFormed)
    (hroots : ∀ root ∈ s.maybeUnflushedRoots, root ∈ s.db.accountsIndex.aliveRoots) :
    s.KeepsView requested shouldClean ↔
      ∀ slot ∈ s.clearRoots requested, Flushable s.db (s.Skips requested shouldClean) slot ∧
        ∀ k a, s.db.accountsCache.holds slot k = some a → Intact s.db slot k a := by
  obtain ⟨hsome, hflushed⟩ := @flushRootedAccountsCache_spec s requested shouldClean hwf
  have hclear : ∀ r ∈ s.clearRoots requested, r ∈ s.db.accountsIndex.aliveRoots :=
    fun r hr => hroots r (mem_of_mem_filter hr)
  constructor
  · rintro ⟨s', hs', hview⟩
    have hflushable := hsome.mp (by rw [hs']; rfl)
    have hf := hflushed s' hs'
    refine fun slot hslot => ⟨hflushable slot hslot, fun k a ha => ?_⟩
    refine hf.intact_of_loaded_eq hwf hclear hflushable (fun k => ?_) hslot ha
    have hload := hview ⟨∅, k, .unspecified⟩ (fun _ h => absurd h (Finset.notMem_empty _))
    rw [(doLoad_spec _ _ hf.coherent).1, (doLoad_spec _ _ hwf.toCoherent).1,
      Except.ok.injEq] at hload
    exact hload
  · intro hcond
    have hflushable := fun r hr => (hcond r hr).1
    obtain ⟨s', hs'⟩ := isSome_iff_exists.mp (hsome.mpr hflushable)
    have hf := hflushed s' hs'
    refine ⟨s', hs', fun q _ => ?_⟩
    rw [(doLoad_spec _ _ hf.coherent).1, (doLoad_spec _ _ hwf.toCoherent).1]
    exact congrArg Except.ok
      (hf.loaded_eq hwf hclear hflushable (fun slot hslot => (hcond slot hslot).2) _ _)

theorem wellFormed_addRoot (hwf : s.db.WellFormed) {root : Slot} (hroot : root ≤ u64Max) :
    (s.addRoot root).db.WellFormed where
  nodup := hwf.nodup
  resolves := hwf.resolves
  readOnly := hwf.readOnly
  roots := fun slot hslot => by
    rcases Finset.mem_insert.mp hslot with rfl | hslot
    · exact hroot
    · exact hwf.roots slot hslot
  known := hwf.known

theorem unflushed_addRoot (root : Slot)
    (h : ∀ r ∈ s.maybeUnflushedRoots, r ∈ s.db.accountsIndex.aliveRoots) :
    ∀ r ∈ (s.addRoot root).maybeUnflushedRoots,
      r ∈ (s.addRoot root).db.accountsIndex.aliveRoots := by
  intro r hr
  dsimp only [addRoot] at hr ⊢
  rw [Finset.mem_insert]
  split_ifs at hr with hnew
  · exact (mem_insertRoot.mp hr).imp_right (h r)
  · exact .inr (h r hr)

def rootedKey : Pubkey := .ofNat (2 ^ 255 + 41)

/-- The key is written in slot 5 and in slot 6, and both become roots. -/
def twoRoots (a b : AccountSharedData) : FlushDb :=
  let db := AccountsDb.new { sonicProgramId := rootedKey.toString } ∅
  let s := withoutRoots ((db.storeCached 5 [(rootedKey, a)]).storeCached 6 [(rootedKey, b)]) 0
  (s.addRoot 5).addRoot 6

variable (a b : AccountSharedData)

theorem twoRoots_wellFormed : (twoRoots a b).db.WellFormed :=
  wellFormed_addRoot (wellFormed_addRoot
    (((AccountsDb.WellFormed.new _ ∅ (by simp)).storeCached 5 _).storeCached 6 _)
    (by decide)) (by decide)

theorem twoRoots_unflushed : ∀ r ∈ (twoRoots a b).maybeUnflushedRoots,
    r ∈ (twoRoots a b).db.accountsIndex.aliveRoots :=
  unflushed_addRoot 6 (unflushed_addRoot 5 (fun _ hr => absurd hr not_mem_nil))

theorem twoRoots_holds {slot : Slot} {k : Pubkey} {x : AccountSharedData}
    (h : (twoRoots a b).db.accountsCache.holds slot k = some x) :
    slot ≠ 0 ∧ (x = accountDefaultIfZeroLamport a ∨ x = accountDefaultIfZeroLamport b) := by
  have hholds : (twoRoots a b).db.accountsCache.holds slot k =
      if slot = 6 ∧ k = rootedKey then some (accountDefaultIfZeroLamport b)
      else if slot = 5 ∧ k = rootedKey then some (accountDefaultIfZeroLamport a)
      else none := by
    dsimp only [twoRoots, withoutRoots, addRoot, storeCached, foldl, storeCachedOne]
    rw [holds_store]
    refine if_congr Iff.rfl rfl ?_
    exact holds_store _ _ _ _ _ _
  rw [hholds] at h
  split_ifs at h with h6 h5
  · exact ⟨by rw [h6.1]; decide, .inr (some.inj h).symm⟩
  · exact ⟨by rw [h5.1]; decide, .inl (some.inj h).symm⟩

def localAccount (lamports : Nat) : AccountSharedData :=
  AccountSharedData.create lamports [1] rootedKey false 0

/-- The older version of a local account is skipped, and no reader misses it. -/
theorem keepsView_localAccount :
    (twoRoots (localAccount 5) (localAccount 7)).KeepsView (some 6) true := by
  have hwf := twoRoots_wellFormed (localAccount 5) (localAccount 7)
  refine (keepsView_iff hwf (twoRoots_unflushed _ _)).mpr fun slot hslot => ⟨?_, ?_⟩
  · refine fun _ => ⟨rfl, fun k hk _ => ?_⟩
    obtain ⟨x, hx⟩ := isSome_iff_exists.mp hk
    exact hwf.known slot k (twoRoots_holds _ _ hx).1 hk
  · intro k x hx _
    obtain ⟨hne, hval⟩ := twoRoots_holds _ _ hx
    refine .inr ⟨?_, hwf.known slot k hne (by rw [hx]; rfl)⟩
    rcases hval with rfl | rfl <;> rfl

def remoteVersion : AccountSharedData :=
  RemoteAccountLoader.remoteAccount
    { lamports := 7, data := [1], owner := rootedKey, executable := false, rentEpoch := 0 }

/-- A remote account that a root has stored is loaded as a local one after the flush. -/
theorem flush_changes_remote_account :
    (twoRoots (localAccount 5) remoteVersion).db.WellFormed ∧
      ((twoRoots (localAccount 5) remoteVersion).db.doLoad
          ⟨{5, 6}, rootedKey, .unspecified⟩).2 = .ok (some (remoteVersion, 6)) ∧
      ¬(twoRoots (localAccount 5) remoteVersion).KeepsView (some 6) true := by
  have hload : ((twoRoots (localAccount 5) remoteVersion).db.doLoad
      ⟨{5, 6}, rootedKey, .unspecified⟩).2 = .ok (some (remoteVersion, 6)) := by
    decide
  refine ⟨twoRoots_wellFormed _ _, hload, ?_⟩
  rintro ⟨s', hs', hview⟩
  have hafter : ((twoRoots (localAccount 5) remoteVersion).flushRootedAccountsCache
      (some 6) true).map (fun s => (s.db.doLoad ⟨{5, 6}, rootedKey, .unspecified⟩).2) =
      some (.ok (some (localAccount 7, 6))) := by
    decide
  rw [hs', map_some, some.injEq,
    hview ⟨{5, 6}, rootedKey, .unspecified⟩ (by decide), hload] at hafter
  revert hafter
  decide

end FlushDb
end Hypergrid
