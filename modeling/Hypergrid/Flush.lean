import Hypergrid.AccountsDb
import Hypergrid.Lib.GuardedRun

/-!
# Flushes beside a load

The machine of this module interleaves the steps of one load with the steps of
`do_flush_slot_cache` (collect and purge, write the storage, update the index key by
key, remove the slot from the write cache), with migrations and deactivations of
remote accounts, and with evictions from the read-only cache.

* `StageOk` says what holds of a slot at each stage of its flush.
* `Moves` says what a step of another thread does to the index entry that the load
  sees: nothing, or the entry goes from the write cache to a storage, or a flush of the
  dummy slot 0 gives an entry to a key that had none.
* `env_step` : every step of another thread keeps the database coherent, also in the
  middle of a flush, and moves the entry in one of these ways.
-/

namespace Hypergrid
open AccountsIndex AccountsDb List

namespace ReaderFlush
open Machine

/-- How far the flush of a slot is. -/
inductive FlushStage where
  | idle
  | collected (accounts : List (Pubkey × AccountSharedData))
  | updating (todo : List (Pubkey × AccountInfo))

/-- The database, one load, and the flushes of all slots. -/
structure State where
  db : AccountsDb
  reader : Reader
  flushing : Slot → FlushStage

/-- The steps of all threads. -/
inductive Event where
  | reader
  | flushCollect (slot : Slot) (skip : List Pubkey)
  | flushWrite (slot : Slot)
  | flushIndex (slot : Slot)
  | flushRemove (slot : Slot)
  | migrate (k : Pubkey) (answers : List (Option RpcAccount))
  | deactivate (k : Pubkey)
  | evict (k : Pubkey) (slot : Slot)

def slotAccounts (c : SlotCacheInner) : List (Pubkey × AccountSharedData) :=
  c.cache.entries.map (fun e => (e.1, e.2))

/-- `should_flush_f` skips a key only after a newer root has written it, and
`purge_slot_cache_pubkeys` asserts that the index has the entry it purges. -/
def maySkip (db : AccountsDb) (slot : Slot) (k : Pubkey) : Bool :=
  (db.accountsIndex.slotList k).any (fun e => e.1 == slot) &&
    (db.accountsIndex.slotList k).any
      (fun e => decide (slot < e.1) && decide (e.1 ∈ db.accountsIndex.aliveRoots))

/-- Remove the index entries of the skipped keys. -/
def purgeKeys (index : AccountsIndex) (slot : Slot) (ks : List Pubkey) : AccountsIndex :=
  ks.foldl (fun index k => index.purgeExact k slot) index

/-- What a flush writes into the new storage. -/
def storedAccounts (accounts : List (Pubkey × AccountSharedData)) :
    List (Pubkey × AccountSharedData) :=
  accounts.map (fun x => (x.1, AccountsDb.accountDefaultIfZeroLamport x.2))

/-- The index entries of the accounts of a new storage. -/
def storedInfos (storeId : Nat) (accounts : List (Pubkey × AccountSharedData)) :
    List (Pubkey × AccountInfo) :=
  (storedAccounts accounts).zipIdx.map
    (fun x => (x.1.1, AccountInfo.new (.appendVec storeId x.2) x.1.2.lamports))

def writeStorage (db : AccountsDb) (slot : Slot)
    (accounts : List (Pubkey × AccountSharedData)) : AccountsDb :=
  { db with
    storage := Function.update db.storage slot
      (some { id := db.nextId, accounts := storedAccounts accounts })
    readOnlyAccountsCache := fun k s =>
      if s = slot ∧ k ∈ accounts.map Prod.fst then none
      else db.readOnlyAccountsCache k s
    nextId := db.nextId + 1 }

/-- One step of the flush of a slot; `none` also stands for a failed assertion. -/
def flushStep (s : State) : Event → Option State
  | .flushCollect slot skip =>
    match s.flushing slot, s.db.accountsCache.slotCache slot, s.db.storage slot with
    | .idle, some c, none =>
      let purged := ((slotAccounts c).map Prod.fst).filter (fun k => k ∈ skip)
      if purged.all (maySkip s.db slot) then
        some { s with
          db := { s.db with
            accountsIndex := purgeKeys s.db.accountsIndex slot purged }
          flushing := Function.update s.flushing slot
            (.collected ((slotAccounts c).filter (fun x => x.1 ∉ skip))) }
      else none
    | _, _, _ => none
  | .flushWrite slot =>
    match s.flushing slot with
    | .collected [] =>
      some { s with flushing := Function.update s.flushing slot (.updating []) }
    | .collected accounts =>
      some { s with
        db := writeStorage s.db slot accounts
        flushing := Function.update s.flushing slot
          (.updating (storedInfos s.db.nextId accounts)) }
    | _ => none
  | .flushIndex slot =>
    match s.flushing slot with
    | .updating (x :: todo) =>
      some { s with
        db := { s.db with accountsIndex := s.db.accountsIndex.upsert slot x.1 x.2 }
        flushing := Function.update s.flushing slot (.updating todo) }
    | _ => none
  | .flushRemove slot =>
    match s.flushing slot with
    | .updating [] =>
      some { s with
        db := s.db.withAccountsCache (s.db.accountsCache.removeSlot slot)
        flushing := Function.update s.flushing slot .idle }
    | _ => none
  | _ => none

def step (q : LoadQuery) (s : State) : Event → Option State
  | .reader =>
    let r := q.step s.db s.reader
    some { s with db := r.1, reader := r.2 }
  | .migrate k answers =>
    some { s with
      db := s.db.withAccountsCache
        (s.db.accountsCache.loadAccountsFromRemote (fun _ => answers) [k]) }
  | .deactivate k =>
    some { s with
      db := s.db.withAccountsCache (s.db.accountsCache.deactivateRemoteAccounts [k]) }
  | .evict k slot => some { s with db := s.db.removeReadOnly k slot }
  | e => flushStep s e

def start (db : AccountsDb) : State :=
  { db, reader := .start, flushing := fun _ => .idle }

def StageOk (db : AccountsDb) (slot : Slot) : FlushStage → Prop
  | .idle =>
    slot ≠ 0 → ∀ k, (db.accountsCache.holds slot k).isSome = true →
      ∃ e ∈ db.accountsIndex.slotList k, e.1 = slot
  | .collected accounts =>
    (accounts.map Prod.fst).Nodup ∧
      db.storage slot = none ∧
      (∀ x ∈ accounts, db.accountsCache.holds slot x.1 = some x.2) ∧
      (∀ x ∈ accounts, slot ≠ 0 → ∃ e ∈ db.accountsIndex.slotList x.1, e.1 = slot) ∧
      ∀ k, ∀ e ∈ db.accountsIndex.slotList k, e.1 = slot →
        k ∈ accounts.map Prod.fst
  | .updating todo =>
    (todo.map Prod.fst).Nodup ∧
      (∀ x ∈ todo,
        x.2.storageLocation.isCached = false ∧
        db.readOnlyAccountsCache x.1 slot = none ∧
        (∃ a, db.accountsCache.holds slot x.1 = some a ∧
          db.resolve slot x.1 x.2.storageLocation =
            some (AccountSharedData.fromStored
              (AccountsDb.accountDefaultIfZeroLamport a))) ∧
        (slot ≠ 0 → ∃ e ∈ db.accountsIndex.slotList x.1, e.1 = slot) ∧
        ∀ e ∈ db.accountsIndex.slotList x.1, e.1 = slot →
          e.2.storageLocation.isCached = true) ∧
      ∀ k, ∀ e ∈ db.accountsIndex.slotList k, e.1 = slot →
        e.2.storageLocation.isCached = true → k ∈ todo.map Prod.fst

/-- The database is coherent and every flush is in order. -/
structure InOrder (s : State) : Prop where
  coherent : s.db.Coherent
  stage : ∀ slot, StageOk s.db slot (s.flushing slot)

variable {slot : Slot} {s s' : State}

section Frame
variable {db db' : AccountsDb}

theorem resolve_congr {k : Pubkey}
    (hholds : db'.accountsCache.holds slot k = db.accountsCache.holds slot k)
    (hstorage : db'.storage slot = db.storage slot)
    (loc : StorageLocation) :
    db'.resolve slot k loc = db.resolve slot k loc := by
  cases loc with
  | cached => exact hholds
  | appendVec id offset =>
    simp only [resolve, getAccountStorageEntry, hstorage]

/-- The stage of a slot depends on what belongs to that slot only, and of the read-only cache on the
accounts that are still to be updated. -/
theorem stageOk_congr
    (hholds : ∀ k, db'.accountsCache.holds slot k = db.accountsCache.holds slot k)
    (hstorage : db'.storage slot = db.storage slot)
    (hro : ∀ k, (∀ e ∈ db.accountsIndex.slotList k, e.1 = slot →
      e.2.storageLocation.isCached = true) → db.readOnlyAccountsCache k slot = none →
        db'.readOnlyAccountsCache k slot = none)
    (hindex : ∀ k e, e.1 = slot →
      (e ∈ db'.accountsIndex.slotList k ↔ e ∈ db.accountsIndex.slotList k))
    {stage : FlushStage}
    (h : StageOk db slot stage) :
    StageOk db' slot stage := by
  have hentry (k : Pubkey) : (∃ e ∈ db.accountsIndex.slotList k, e.1 = slot) →
      ∃ e ∈ db'.accountsIndex.slotList k, e.1 = slot := by
    rintro ⟨e, he, hes⟩
    exact ⟨e, (hindex k e hes).mpr he, hes⟩
  cases stage with
  | idle =>
    intro hs k hk
    rw [hholds] at hk
    exact hentry k (h hs k hk)
  | collected accounts =>
    obtain ⟨hnodup, hnone, hacc, hmem, hall⟩ := h
    refine ⟨hnodup, hstorage.trans hnone, ?_, ?_, ?_⟩
    · intro x hx
      rw [hholds]
      exact hacc x hx
    · intro x hx hs
      exact hentry x.1 (hmem x hx hs)
    · intro k e he hes
      exact hall k e ((hindex k e hes).mp he) hes
  | updating todo =>
    obtain ⟨hnodup, htodo, hall⟩ := h
    refine ⟨hnodup, ?_, ?_⟩
    · intro x hx
      obtain ⟨hc, hr, ⟨a, ha, hres⟩, hmem, hcached⟩ := htodo x hx
      refine ⟨hc, hro x.1 hcached hr, ⟨a, (hholds x.1).trans ha, ?_⟩,
        fun hs => hentry x.1 (hmem hs), ?_⟩
      · rw [resolve_congr (hholds x.1) hstorage]
        exact hres
      · intro e he hes
        exact hcached e ((hindex x.1 e hes).mp he) hes
    · intro k e he hes
      exact hall k e ((hindex k e hes).mp he) hes

theorem stage_update {flushing : Slot → FlushStage} {stage : FlushStage}
    (hnew : StageOk db' slot stage)
    (hother : ∀ slot', slot' ≠ slot → StageOk db' slot' (flushing slot'))
    (slot' : Slot) :
    StageOk db' slot' (Function.update flushing slot stage slot') := by
  by_cases hss : slot' = slot
  · subst hss
    simpa using hnew
  · rw [Function.update_of_ne hss]
    exact hother slot' hss

end Frame

/-- What a step of another thread does to the index entry that the load sees. -/
inductive Moves (q : LoadQuery) (db db' : AccountsDb) : Prop
  | same
      (hget : db'.accountsIndex.get q.pubkey q.ancestors none =
        db.accountsIndex.get q.pubkey q.ancestors none)
      (hres : ∀ slot info,
        db.accountsIndex.get q.pubkey q.ancestors none = some (slot, info) →
        db'.resolve slot q.pubkey info.storageLocation =
          db.resolve slot q.pubkey info.storageLocation)
  | flushed (slot : Slot) (info info' : AccountInfo) (a : AccountSharedData)
      (hget : db.accountsIndex.get q.pubkey q.ancestors none = some (slot, info))
      (hcached : info.storageLocation = .cached)
      (hholds : db.accountsCache.holds slot q.pubkey = some a)
      (hget' : db'.accountsIndex.get q.pubkey q.ancestors none = some (slot, info'))
      (hstored : info'.storageLocation.isCached = false)
      (hres : db'.resolve slot q.pubkey info'.storageLocation =
        some (AccountSharedData.fromStored
          (AccountsDb.accountDefaultIfZeroLamport a)))
  | dummy (info : AccountInfo)
      (hget : db.accountsIndex.get q.pubkey q.ancestors none = none)
      (hget' : db'.accountsIndex.get q.pubkey q.ancestors none = some (0, info))
      (hstored : info.storageLocation.isCached = false)

/-- A step of another thread. -/
structure EnvStep (q : LoadQuery) (s s' : State) : Prop where
  inOrder : InOrder s'
  moves : Moves q s.db s'.db
  reader : s'.reader = s.reader
  holds : ∀ slot,
    s'.db.accountsCache.holds slot q.pubkey = s.db.accountsCache.holds slot q.pubkey ∨
      s'.db.accountsCache.holds slot q.pubkey = none

section Collect
variable {index : AccountsIndex} {ks : List Pubkey} {e : Slot × AccountInfo} {k : Pubkey}

theorem mem_purgeKeys :
    e ∈ (purgeKeys index slot ks).slotList k ↔ e ∈ index.slotList k ∧ ¬ (k ∈ ks ∧ e.1 = slot) := by
  induction ks generalizing index with
  | nil => simp [purgeKeys]
  | cons j ks ih =>
    have hrest := @ih (index.purgeExact j slot)
    simp only [purgeKeys, foldl_cons] at hrest ⊢
    rw [hrest, mem_purgeExact, mem_cons]
    tauto

theorem purgeKeys_nodup (h : ∀ k, ((index.slotList k).map Prod.fst).Nodup) (k : Pubkey) :
    (((purgeKeys index slot ks).slotList k).map Prod.fst).Nodup := by
  induction ks generalizing index with
  | nil => exact h k
  | cons j ks ih => exact ih (purgeExact_nodup h)

@[simp] theorem purgeKeys_aliveRoots : (purgeKeys index slot ks).aliveRoots = index.aliveRoots := by
  induction ks generalizing index with
  | nil => rfl
  | cons j ks ih =>
    exact (@ih (index.purgeExact j slot)).trans rfl

theorem mem_slotAccounts {c : AccountsCache} {inner : SlotCacheInner}
    (hc : c.slotCache slot = some inner) {a : AccountSharedData} :
    (k, a) ∈ slotAccounts inner ↔ c.holds slot k = some a := by
  simp only [AccountsCache.holds, hc, Option.bind_some, SlotCacheInner.getCloned,
    slotAccounts, mem_map]
  rw [← Option.mem_def, AList.mem_lookup_iff]
  constructor
  · rintro ⟨e, he, heq⟩
    obtain ⟨rfl, rfl⟩ := heq
    exact he
  · intro h
    exact ⟨⟨k, a⟩, h, rfl⟩

theorem slotAccounts_nodup (inner : SlotCacheInner) :
    ((slotAccounts inner).map Prod.fst).Nodup := by
  have hkeys : (slotAccounts inner).map Prod.fst = inner.cache.keys := by
    simp [slotAccounts, AList.keys, keys, map_map, Function.comp_def]
  rw [hkeys]
  exact inner.cache.keys_nodup

theorem cached_of_storage_none {db : AccountsDb} (hcoh : db.Coherent)
    (hnone : db.storage slot = none)
    (he : e ∈ db.accountsIndex.slotList k) (hes : e.1 = slot) :
    e.2.storageLocation = .cached := by
  have hres := hcoh.resolves k e he
  cases hloc : e.2.storageLocation with
  | cached => rfl
  | appendVec id offset =>
    rw [hloc, hes] at hres
    simp [resolve, getAccountStorageEntry, hnone] at hres

theorem not_mem_of_maySkip {db : AccountsDb} {q : LoadQuery} {info : AccountInfo}
    (hcoh : db.Coherent)
    (hget : db.accountsIndex.get q.pubkey q.ancestors none = some (slot, info)) :
    maySkip db slot q.pubkey = false := by
  by_contra hskip
  simp only [maySkip, Bool.not_eq_false, Bool.and_eq_true, any_eq_true, decide_eq_true_eq] at hskip
  obtain ⟨_, e, he, hlt, hroot⟩ := hskip
  obtain ⟨_, _, hmax⟩ := get_eq_some hget
  have hle := hmax e he (.inr ⟨hcoh.roots _ hroot, hroot⟩)
  exact absurd hlt (not_lt.mpr hle)

/-- `flush_slot_cache` collects the accounts and purges what a newer root has written. -/
theorem collect_envStep (q : LoadQuery) (h : InOrder s) {skip : List Pubkey}
    (hs : flushStep s (.flushCollect slot skip) = some s') :
    EnvStep q s s' := by
  simp only [flushStep] at hs
  split at hs
  case h_2 => cases hs
  case h_1 c hidle hc hnone =>
    split_ifs at hs with hskip
    cases hs
    set purged := ((slotAccounts c).map Prod.fst).filter (fun k => k ∈ skip) with hpurged
    have hstage := h.stage slot
    rw [hidle] at hstage
    refine ⟨⟨?_, ?_⟩, ?_, rfl, fun _ => .inl rfl⟩
    · refine ⟨purgeKeys_nodup h.coherent.nodup, ?_, ?_, ?_⟩
      · intro k e he
        exact h.coherent.resolves k e (mem_purgeKeys.mp he).1
      · intro k e a he
        exact h.coherent.readOnly k e a (mem_purgeKeys.mp he).1
      · simpa using h.coherent.roots
    · refine stage_update ?_ ?_
      · refine ⟨?_, hnone, ?_, ?_, ?_⟩
        · exact .sublist (filter_sublist.map Prod.fst)
            (slotAccounts_nodup c)
        · intro x hx
          exact (mem_slotAccounts hc).mp (mem_filter.mp hx).1
        · intro x hx hs0
          obtain ⟨hx, hns⟩ := mem_filter.mp hx
          have hheld := (mem_slotAccounts hc).mp hx
          obtain ⟨e, he, hes⟩ := hstage hs0 x.1 (by simp [hheld])
          refine ⟨e, mem_purgeKeys.mpr ⟨he, ?_⟩, hes⟩
          rintro ⟨hp, _⟩
          simp_all
        · intro k e he hes
          obtain ⟨he, hnp⟩ := mem_purgeKeys.mp he
          have hcached := cached_of_storage_none h.coherent hnone he hes
          have hres := h.coherent.resolves k e he
          rw [hcached, hes] at hres
          obtain ⟨a, ha⟩ := Option.isSome_iff_exists.mp hres
          have hmem := (mem_slotAccounts hc).mpr ha
          rw [mem_map]
          refine ⟨(k, a), mem_filter.mpr ⟨hmem, ?_⟩, rfl⟩
          by_contra hskipk
          refine hnp ⟨?_, hes⟩
          rw [hpurged, mem_filter]
          exact ⟨mem_map.mpr ⟨(k, a), hmem, rfl⟩, by simpa using hskipk⟩
      · intro slot' hss
        refine stageOk_congr ?_ ?_ ?_ ?_ (h.stage slot')
        · exact fun _ => rfl
        · rfl
        · exact fun _ _ hr => hr
        · intro k e hes
          rw [mem_purgeKeys]
          refine ⟨fun he => he.1, fun he => ⟨he, ?_⟩⟩
          rintro ⟨_, hes'⟩
          exact hss (hes.symm.trans hes')
    · refine .same ?_ (fun _ _ _ => rfl)
      cases hget : s.db.accountsIndex.get q.pubkey q.ancestors none with
      | none =>
        rw [get_eq_none_iff] at hget ⊢
        intro e he
        rw [visible_congr purgeKeys_aliveRoots]
        exact hget e (mem_purgeKeys.mp he).1
      | some found =>
        obtain ⟨hmem, hvis, hmax⟩ := get_eq_some hget
        refine get_eq_some_of_max (purgeKeys_nodup h.coherent.nodup _)
          (mem_purgeKeys.mpr ⟨hmem, ?_⟩) ?_ ?_
        · rintro ⟨hp, hfs⟩
          have hall := all_eq_true.mp hskip q.pubkey hp
          have hfound : s.db.accountsIndex.get q.pubkey q.ancestors none =
              some (slot, found.2) := by rw [hget, ← hfs]
          rw [not_mem_of_maySkip h.coherent hfound] at hall
          cases hall
        · rw [visible_congr purgeKeys_aliveRoots]
          exact hvis
        · intro e he hev
          rw [visible_congr purgeKeys_aliveRoots] at hev
          exact hmax e (mem_purgeKeys.mp he).1 hev

end Collect

theorem storedInfos_keys (storeId : Nat) (accounts : List (Pubkey × AccountSharedData)) :
    (storedInfos storeId accounts).map Prod.fst = accounts.map Prod.fst := by
  have hkeys (xs : List (Pubkey × AccountSharedData)) (n : Nat) :
      (xs.zipIdx n).map (fun x => x.1.1) = xs.map Prod.fst := by
    induction xs generalizing n with
    | nil => rfl
    | cons x xs ih => simp [zipIdx_cons, ih]
  simp only [storedInfos, map_map, Function.comp_def]
  rw [hkeys, storedAccounts, map_map]
  rfl

theorem mem_storedInfos {storeId : Nat} {accounts : List (Pubkey × AccountSharedData)}
    {x : Pubkey × AccountInfo} (hx : x ∈ storedInfos storeId accounts) :
    ∃ a offset, (x.1, a) ∈ accounts ∧ x.2.storageLocation = .appendVec storeId offset ∧
      (storedAccounts accounts)[offset]? =
        some (x.1, AccountsDb.accountDefaultIfZeroLamport a) := by
  simp only [storedInfos, mem_map] at hx
  obtain ⟨⟨⟨k, b⟩, offset⟩, hmem, rfl⟩ := hx
  rw [mem_zipIdx_iff_getElem?] at hmem
  have hin : (k, b) ∈ storedAccounts accounts := mem_of_getElem? hmem
  simp only [storedAccounts, mem_map, Prod.mk.injEq] at hin
  obtain ⟨⟨k', a⟩, ha, hk, hb⟩ := hin
  subst hk
  subst hb
  exact ⟨a, offset, ha, rfl, hmem⟩

theorem resolve_writeStorage {db : AccountsDb} (hcoh : db.Coherent) (hnone : db.storage slot = none)
    (accounts : List (Pubkey × AccountSharedData))
    {k : Pubkey} {e : Slot × AccountInfo} (he : e ∈ db.accountsIndex.slotList k) :
    (writeStorage db slot accounts).resolve e.1 k e.2.storageLocation =
      db.resolve e.1 k e.2.storageLocation := by
  by_cases hes : e.1 = slot
  · rw [cached_of_storage_none hcoh hnone he hes]
    rfl
  · refine resolve_congr ?_ ?_ _
    · rfl
    · simp [writeStorage, hes]

theorem writeStorage_envStep (q : LoadQuery) (h : InOrder s)
    (hs : flushStep s (.flushWrite slot) = some s') :
    EnvStep q s s' := by
  have hstage := h.stage slot
  simp only [flushStep] at hs
  split at hs
  case h_3 => cases hs
  case h_1 hcol =>
    cases hs
    rw [hcol] at hstage
    obtain ⟨_, _, _, _, hall⟩ := hstage
    refine ⟨⟨h.coherent, stage_update ⟨by simp, by simp, ?_⟩ (fun slot' _ => h.stage slot')⟩,
      Moves.same rfl (fun _ _ _ => rfl), rfl, fun _ => .inl rfl⟩
    intro k e he hes _
    simpa using hall k e he hes
  case h_2 accounts _ hcol =>
    cases hs
    rw [hcol] at hstage
    obtain ⟨hnodup, hnone, hheld, hentry, hall⟩ := hstage
    have hresolve (k : Pubkey) (e : Slot × AccountInfo) (he : e ∈ s.db.accountsIndex.slotList k) :=
      resolve_writeStorage h.coherent hnone accounts he
    refine ⟨⟨?_, stage_update ?_ ?_⟩, .same rfl ?_, rfl, fun _ => .inl rfl⟩
    · refine ⟨h.coherent.nodup, ?_, ?_, h.coherent.roots⟩
      · intro k e he
        rw [hresolve k e he]
        exact h.coherent.resolves k e he
      · intro k e a he hc hra
        rw [hresolve k e he]
        simp only [writeStorage] at hra
        split_ifs at hra
        exact h.coherent.readOnly k e a he hc hra
    · refine ⟨by rw [storedInfos_keys]; exact hnodup, ?_, ?_⟩
      · intro x hx
        obtain ⟨a, offset, hmem, hloc, hget⟩ := mem_storedInfos hx
        refine ⟨by simp [hloc, StorageLocation.isCached], ?_, ⟨a, hheld _ hmem, ?_⟩,
          hentry _ hmem, ?_⟩
        · have hin : x.1 ∈ accounts.map Prod.fst := mem_map.mpr ⟨_, hmem, rfl⟩
          simp [writeStorage, hin]
        · simp [hloc, resolve, getAccountStorageEntry, writeStorage, hget]
        · intro e he hes
          rw [cached_of_storage_none h.coherent hnone he hes]
          rfl
      · intro k e he hes _
        rw [storedInfos_keys]
        exact hall k e he hes
    · intro slot' hss
      refine stageOk_congr ?_ ?_ ?_ ?_ (h.stage slot')
      · exact fun _ => rfl
      · simp [writeStorage, hss]
      · intro k _ hr
        simpa [writeStorage, hss] using hr
      · exact fun _ _ _ => .rfl
    · intro slot' info hget
      exact hresolve q.pubkey (slot', info) (get_eq_some hget).1

theorem flushIndex_moves (q : LoadQuery) (h : InOrder s)
    {x : Pubkey × AccountInfo} {todo : List (Pubkey × AccountInfo)}
    (hst : s.flushing slot = .updating (x :: todo)) :
    Moves q s.db { s.db with accountsIndex := s.db.accountsIndex.upsert slot x.1 x.2 } := by
  have hstage := h.stage slot
  rw [hst] at hstage
  obtain ⟨_, htodo, _⟩ := hstage
  obtain ⟨hc, _, ⟨a, ha, hres⟩, hentry, hcached⟩ := htodo x (by simp)
  cases hget : s.db.accountsIndex.get q.pubkey q.ancestors none with
  | some found =>
    obtain ⟨slot₀, info⟩ := found
    obtain ⟨hmem, _, hmax⟩ := get_eq_some hget
    by_cases hsame : q.pubkey = x.1 ∧ slot₀ = slot
    · obtain ⟨hk, rfl⟩ := hsame
      rw [← hk] at ha hres hcached
      have hloc : info.storageLocation = .cached := by
        have hcache := hcached (slot₀, info) hmem rfl
        cases hl : info.storageLocation with
        | cached => rfl
        | appendVec id offset => simp [hl, StorageLocation.isCached] at hcache
      refine .flushed slot₀ info x.2 a hget hloc ha ?_ hc hres
      rw [← hk]
      exact get_upsert_same h.coherent.nodup hget
    · refine .same ?_ (fun _ _ _ => rfl)
      rw [hget]
      refine get_upsert_of_le h.coherent.nodup hget hsame ?_
      intro hk hvis
      by_cases hs0 : slot = 0
      · rw [hs0]
        exact Nat.zero_le _
      · obtain ⟨e, he, hes⟩ := hentry hs0
        rw [← hk] at he
        rw [← hes] at hvis ⊢
        exact hmax e he hvis
  | none =>
    rcases get_upsert_of_none h.coherent.nodup hget with hnone | ⟨hk, hsome⟩
    · exact .same (hnone.trans hget.symm) (fun _ _ _ => rfl)
    · by_cases hs0 : slot = 0
      · rw [hs0] at hsome ⊢
        exact .dummy x.2 hget hsome hc
      · obtain ⟨e, he, hes⟩ := hentry hs0
        obtain ⟨_, hvis, _⟩ := get_eq_some hsome
        rw [← hk] at he
        rw [get_eq_none_iff] at hget
        exact absurd (hes ▸ hvis) (hget e he)

theorem flushIndex_envStep (q : LoadQuery) (h : InOrder s)
    (hs : flushStep s (.flushIndex slot) = some s') :
    EnvStep q s s' := by
  have hstage := h.stage slot
  simp only [flushStep] at hs
  split at hs
  case h_2 => cases hs
  case h_1 x todo hst =>
    cases hs
    rw [hst] at hstage
    obtain ⟨hnodup, htodo, hall⟩ := hstage
    obtain ⟨hc, hro, ⟨a, ha, hres⟩, _, _⟩ := htodo x (by simp)
    rw [map_cons, nodup_cons] at hnodup
    refine ⟨⟨?_, stage_update ?_ ?_⟩, flushIndex_moves q h hst, rfl, fun _ => .inl rfl⟩
    · refine ⟨upsert_nodup h.coherent.nodup, ?_, ?_, h.coherent.roots⟩
      · intro k e he
        rcases mem_upsert.mp he with ⟨rfl, rfl⟩ | ⟨he, _⟩
        · exact Option.isSome_iff_exists.mpr ⟨_, hres⟩
        · exact h.coherent.resolves k e he
      · intro k e b he hcb hra
        rcases mem_upsert.mp he with ⟨rfl, rfl⟩ | ⟨he, _⟩
        · exact absurd (hra.symm.trans hro) (by simp)
        · exact h.coherent.readOnly k e b he hcb hra
    · refine ⟨hnodup.2, ?_, ?_⟩
      · intro y hy
        have hne : y.1 ≠ x.1 := by
          intro heq
          exact hnodup.1 (heq ▸ mem_map.mpr ⟨y, hy, rfl⟩)
        obtain ⟨hyc, hyro, hyres, hyentry, hycached⟩ := htodo y (mem_cons_of_mem _ hy)
        refine ⟨hyc, hyro, hyres, ?_, ?_⟩
        · intro hs0
          obtain ⟨e, he, hes⟩ := hyentry hs0
          exact ⟨e, mem_upsert.mpr (.inr ⟨he, fun hk => hne hk.1⟩), hes⟩
        · intro e he hes
          rcases mem_upsert.mp he with ⟨hk, _⟩ | ⟨he, _⟩
          · exact absurd hk hne
          · exact hycached e he hes
      · intro k e he hes hcached
        rcases mem_upsert.mp he with ⟨_, rfl⟩ | ⟨he, hne⟩
        · exact absurd (hc.symm.trans hcached) (by simp)
        · have hin := hall k e he hes hcached
          rw [map_cons, mem_cons] at hin
          rcases hin with hk | hin
          · exact absurd ⟨hk, hes⟩ hne
          · exact hin
    · intro slot' hss
      refine stageOk_congr ?_ ?_ ?_ ?_ (h.stage slot')
      · exact fun _ => rfl
      · rfl
      · exact fun _ _ hr => hr
      · intro k e hes
        rw [mem_upsert]
        constructor
        · rintro (⟨_, rfl⟩ | ⟨he, _⟩)
          · exact absurd hes.symm hss
          · exact he
        · intro he
          exact .inr ⟨he, fun hk => hss (hes.symm.trans hk.2)⟩

theorem removeSlot_envStep (q : LoadQuery) (h : InOrder s)
    (hs : flushStep s (.flushRemove slot) = some s') :
    EnvStep q s s' := by
  have hstage := h.stage slot
  simp only [flushStep] at hs
  split at hs
  case h_2 => cases hs
  case h_1 hst =>
    cases hs
    rw [hst] at hstage
    obtain ⟨_, _, hall⟩ := hstage
    have hholds (slot' : Slot) (k : Pubkey) :=
      AccountsCache.holds_removeSlot s.db.accountsCache slot slot' k
    have hresolve (k : Pubkey) (e : Slot × AccountInfo) (he : e ∈ s.db.accountsIndex.slotList k) :
        (s.db.withAccountsCache (s.db.accountsCache.removeSlot slot)).resolve
            e.1 k e.2.storageLocation =
          s.db.resolve e.1 k e.2.storageLocation := by
      cases hloc : e.2.storageLocation with
      | appendVec id offset => rfl
      | cached =>
        have hne : e.1 ≠ slot := by
          intro hes
          have hin := hall k e he hes (by simp [hloc, StorageLocation.isCached])
          simp at hin
        simp [resolve, hholds, hne]
    refine ⟨⟨?_, stage_update ?_ ?_⟩, .same rfl ?_, rfl, ?_⟩
    · refine ⟨h.coherent.nodup, ?_, ?_, h.coherent.roots⟩
      · intro k e he
        rw [hresolve k e he]
        exact h.coherent.resolves k e he
      · intro k e a he hc hra
        rw [hresolve k e he]
        exact h.coherent.readOnly k e a he hc hra
    · intro _ k hk
      simp [hholds] at hk
    · intro slot' hss
      refine stageOk_congr ?_ ?_ ?_ ?_ (h.stage slot')
      · intro k
        simp [hholds, hss]
      · rfl
      · exact fun _ _ hr => hr
      · exact fun _ _ _ => .rfl
    · intro slot' info hget
      exact hresolve q.pubkey (slot', info) (get_eq_some hget).1
    · intro slot'
      rw [withAccountsCache_accountsCache, hholds]
      split_ifs
      · exact .inr rfl
      · exact .inl rfl

theorem loader_envStep (q : LoadQuery) (h : InOrder s) (l : RemoteAccountLoader) :
    EnvStep q s { s with db := s.db.withRemoteLoader l } where
  inOrder := by
    refine ⟨⟨h.coherent.nodup, h.coherent.resolves, h.coherent.readOnly, h.coherent.roots⟩, ?_⟩
    intro slot
    refine stageOk_congr ?_ ?_ ?_ ?_ (h.stage slot)
    · exact fun _ => rfl
    · rfl
    · exact fun _ _ hr => hr
    · exact fun _ _ _ => .rfl
  moves := .same rfl (fun _ _ _ => rfl)
  reader := rfl
  holds := fun _ => .inl rfl

theorem evict_envStep (q : LoadQuery) (h : InOrder s) (k : Pubkey) (slot : Slot) :
    EnvStep q s { s with db := s.db.removeReadOnly k slot } where
  inOrder := by
    have hsub (k' : Pubkey) (slot' : Slot) :
        (s.db.removeReadOnly k slot).readOnlyAccountsCache k' slot' =
            s.db.readOnlyAccountsCache k' slot' ∨
          (s.db.removeReadOnly k slot).readOnlyAccountsCache k' slot' = none := by
      simp only [removeReadOnly]
      split_ifs
      · exact .inr rfl
      · exact .inl rfl
    refine ⟨⟨h.coherent.nodup, h.coherent.resolves, ?_, h.coherent.roots⟩, ?_⟩
    · intro k' e a he hc hra
      rcases hsub k' e.1 with heq | heq
      · exact h.coherent.readOnly k' e a he hc (heq ▸ hra)
      · exact absurd (hra.symm.trans heq) (by simp)
    · intro slot'
      refine stageOk_congr ?_ ?_ ?_ ?_ (h.stage slot')
      · exact fun _ => rfl
      · rfl
      · intro k' _ hr
        rcases hsub k' slot' with heq | heq
        · exact heq.trans hr
        · exact heq
      · exact fun _ _ _ => .rfl
  moves := .same rfl (fun _ _ _ => rfl)
  reader := rfl
  holds := fun _ => .inl rfl

theorem env_step (q : LoadQuery) (h : InOrder s) {e : Event} (he : e ≠ .reader)
    (hs : step q s e = some s') :
    EnvStep q s s' := by
  cases e with
  | reader => exact absurd rfl he
  | flushCollect slot skip => exact collect_envStep q h hs
  | flushWrite slot => exact writeStorage_envStep q h hs
  | flushIndex slot => exact flushIndex_envStep q h hs
  | flushRemove slot => exact removeSlot_envStep q h hs
  | migrate k answers =>
    cases hs
    exact loader_envStep q h _
  | deactivate k =>
    cases hs
    exact loader_envStep q h _
  | evict k slot =>
    cases hs
    exact evict_envStep q h k slot

end ReaderFlush
end Hypergrid
